import Unp.Thread.Account
import Unp.Thread.Wakeups

/-!
# Every task is carried out

The pool is left to its workers and to the calls of `add_task` that are under way: nobody calls it
anew, and no thread wakes up on its own. Then every schedule ends (`work` is used up by every step),
and when no thread can go on, the deque is empty, every call has returned and every task has been
carried out. It is enough that one worker is there to stay.
-/

namespace Unp.ThreadPool

open Unp.Monitor Unp.Schedule

variable {τ : Type}

/-- The steps of the workers and of the calls of `add_task` that are under way. The owner makes none, no
cancellation is acted on, no call begins and nothing wakes up on its own. A task is one step of its
worker: it returns. -/
def Serving : Action τ → Prop
  | .producer _ _ | .worker _ _ => True
  | _ => False

/-- The worker is not on its way out. -/
def WorkerAt.serving : WorkerAt τ → Bool
  | .cancelled | .cleanup | .ended => false
  | _ => true

/-- The pool has been started, and one worker is there to stay. -/
def Staffed (s : Pool τ) : Prop :=
  s.running = true ∧ ∃ (w : Nat) (x : Worker τ), s.threads[w]? = some x ∧ x.place.serving = true ∧
    x.cancelRequested = false

/-! ## The work ahead -/

/-- Taking a task is worth the way back to `wait`, and waking a caller. -/
def WorkerAt.work : WorkerAt τ → Nat
  | .waiting | .ended => 0
  | .take | .cleanup => 1
  | .disable | .cancelled => 2
  | .check => 3
  | .lock | .notified => 4
  | .loop => 5
  | .testcancel => 6
  | .enable => 7
  | .run _ => 8
  | .unlock _ => 9
  | .notify _ => 12

/-- Adding a task is worth the task, and waking a worker. -/
def ProducerAt.work : ProducerAt τ → Nat
  | .outside => 0
  | .unlock => 1
  | .notify => 6
  | .push _ | .waiting _ => 19
  | .check _ => 20
  | .lock _ | .notified _ => 21

def Pool.work (s : Pool τ) : Nat :=
  workers WorkerAt.work s + callers ProducerAt.work s + 12 * s.tasks.length

theorem Quiet.work_lt {s : Pool τ} {x y : Worker τ} (h : Quiet s x y) :
    y.place.work < x.place.work := by
  cases h <;> simp_all [Worker.go, WorkerAt.work]

/-- A worker goes from `x` to `y`; the callers and the deque may need more work than before, if `y`
needs that much less than `x`. -/
theorem work_lt_of_worker {s s' : Pool τ} {w : Nat} {x y : Worker τ} (hx : s.threads[w]? = some x)
    (hthreads : s'.threads = s.threads.set w y)
    (hlt : y.place.work + callers ProducerAt.work s' + 12 * s'.tasks.length <
      x.place.work + callers ProducerAt.work s + 12 * s.tasks.length) : s'.work < s.work := by
  have hset := workers_set hx WorkerAt.work y
  unfold Pool.work workers
  rw [hthreads]
  unfold workers at hset
  omega

theorem work_lt_of_caller {s s' : Pool τ} {p : Nat} {x y : ProducerAt τ}
    (hx : s.producers[p]? = some x) (hproducers : s'.producers = s.producers.set p y)
    (hlt : y.work + workers WorkerAt.work s' + 12 * s'.tasks.length <
      x.work + workers WorkerAt.work s + 12 * s.tasks.length) : s'.work < s.work := by
  have hset := callers_set hx ProducerAt.work y
  unfold Pool.work callers
  rw [hproducers]
  unfold callers at hset
  omega

theorem WorkerMove.work_lt {w : Nat} {s s' : Pool τ} {x : Worker τ} (h : WorkerMove w s x s')
    (hx : s.threads[w]? = some x) : s'.work < s.work := by
  -- a step that leaves the callers and the deque alone
  have hquiet : ∀ {y : Worker τ}, y.place.work < x.place.work →
      y.place.work + callers ProducerAt.work s + 12 * s.tasks.length <
        x.place.work + callers ProducerAt.work s + 12 * s.tasks.length :=
    fun hlt => Nat.add_lt_add_right (Nat.add_lt_add_right hlt _) _
  cases h with
  | quiet hq => exact work_lt_of_worker hx rfl (hquiet hq.work_lt)
  | acquire hm hp =>
      refine work_lt_of_worker hx rfl (hquiet ?_)
      rcases hp with hp | hp <;> rw [hp] <;> exact Nat.lt_succ_self 3
  | sleep hp ht => exact work_lt_of_worker hx rfl (hquiet (by rw [hp]; exact Nat.zero_lt_succ 2))
  | @take t rest hp ht =>
      refine work_lt_of_worker hx rfl ?_
      show 12 + callers ProducerAt.work s + 12 * rest.length < _
      rw [hp, ht, List.length_cons]
      show _ < 1 + callers ProducerAt.work s + 12 * (rest.length + 1)
      omega
  | @notify t choice ps hp hn =>
      have hcallers : total ProducerAt.work ps ≤ callers ProducerAt.work s + 2 := by
        rcases notifyOne_cases hn with ⟨-, rfl⟩ | ⟨y, hy, hs, rfl⟩
        · exact Nat.le_add_right ..
        · obtain ⟨t', rfl⟩ := ProducerAt.asleep_iff.mp hs
          exact Nat.le_of_add_le_add_right (Nat.le_of_eq (callers_set hy ProducerAt.work _))
      refine work_lt_of_worker hx rfl ?_
      show 9 + total ProducerAt.work ps + 12 * s.tasks.length < _
      rw [hp]
      show _ < 12 + callers ProducerAt.work s + 12 * s.tasks.length
      omega
  | unlock hp => exact work_lt_of_worker hx rfl (hquiet (by rw [hp]; exact Nat.lt_succ_self 8))
  | finish hp => exact work_lt_of_worker hx rfl (hquiet (by rw [hp]; exact Nat.lt_succ_self 7))
  | reacquire hm hp => exact work_lt_of_worker hx rfl (hquiet (by rw [hp]; exact Nat.lt_succ_self 1))
  | cleanup hp => exact work_lt_of_worker hx rfl (hquiet (by rw [hp]; exact Nat.lt_succ_self 0))

theorem ProducerMove.work_lt {p : Nat} {s s' : Pool τ} {x : ProducerAt τ}
    (h : ProducerMove p s x s') (hx : s.producers[p]? = some x) : s'.work < s.work := by
  have hquiet : ∀ {y : ProducerAt τ}, y.work < x.work →
      y.work + workers WorkerAt.work s + 12 * s.tasks.length <
        x.work + workers WorkerAt.work s + 12 * s.tasks.length :=
    fun hlt => Nat.add_lt_add_right (Nat.add_lt_add_right hlt _) _
  cases h with
  | acquire hm hp =>
      refine work_lt_of_caller hx rfl (hquiet ?_)
      rcases hp with rfl | rfl <;> exact Nat.lt_succ_self 20
  | sleep hfull => exact work_lt_of_caller hx rfl (hquiet (Nat.lt_succ_self 19))
  | room hroom => exact work_lt_of_caller hx rfl (hquiet (Nat.lt_succ_self 19))
  | @push t =>
      refine work_lt_of_caller hx rfl ?_
      show 6 + workers WorkerAt.work s + 12 * (s.tasks ++ [t]).length <
        19 + workers WorkerAt.work s + 12 * s.tasks.length
      rw [List.length_append, List.length_singleton]
      omega
  | @notify choice ts hn =>
      have hworkers : total (fun x => x.place.work) ts ≤ workers WorkerAt.work s + 4 := by
        rcases notifyOne_cases hn with ⟨-, rfl⟩ | ⟨y, hy, hs, rfl⟩
        · exact Nat.le_add_right ..
        · have hset := workers_set hy WorkerAt.work y.wake
          rw [Worker.asleep_iff.mp hs] at hset
          exact Nat.le_of_eq hset
      refine work_lt_of_caller hx rfl ?_
      show 1 + total (fun x => x.place.work) ts + 12 * s.tasks.length <
        6 + workers WorkerAt.work s + 12 * s.tasks.length
      omega
  | unlock => exact work_lt_of_caller hx rfl (hquiet (Nat.lt_succ_self 0))

/-! ## The worker that stays -/

theorem Quiet.serving {s : Pool τ} {x y : Worker τ} (h : Quiet s x y) (hrun : s.running = true)
    (hreq : x.cancelRequested = false) :
    y.place.serving = true ∧ y.cancelRequested = false := by
  cases h <;> simp_all [Worker.go, WorkerAt.serving]

theorem Staffed.set {s s' : Pool τ} {v : Nat} {y z : Worker τ} (hs : Staffed s)
    (hy : s.threads[v]? = some y) (hrun : s'.running = s.running)
    (hthreads : s'.threads = s.threads.set v z)
    (hstays : y.place.serving = true → y.cancelRequested = false →
      z.place.serving = true ∧ z.cancelRequested = false) : Staffed s' := by
  obtain ⟨hr, w, x, hx, hserving, hreq⟩ := hs
  refine ⟨hrun.trans hr, w, ?_⟩
  rw [hthreads, getElem?_set_of_some hy]
  by_cases hv : v = w
  · subst hv
    cases hx.symm.trans hy
    exact ⟨z, if_pos rfl, hstays hserving hreq⟩
  · exact ⟨x, by rw [if_neg hv]; exact hx, hserving, hreq⟩

theorem WorkerMove.staffed {w : Nat} {s s' : Pool τ} {x : Worker τ} (h : WorkerMove w s x s')
    (hx : s.threads[w]? = some x) (hs : Staffed s) : Staffed s' := by
  cases h with
  | quiet hq => exact hs.set hx rfl rfl fun _ hreq => hq.serving hs.1 hreq
  | cleanup hp => exact hs.set hx rfl rfl (by rw [hp]; exact nofun)
  | reacquire hm hp => exact hs.set hx rfl rfl (by rw [hp]; exact nofun)
  | acquire | sleep | take | notify | unlock | finish =>
      exact hs.set hx rfl rfl fun _ hreq => ⟨rfl, hreq⟩

theorem ProducerMove.staffed {p : Nat} {s s' : Pool τ} {x : ProducerAt τ} (h : ProducerMove p s x s')
    (hs : Staffed s) : Staffed s' := by
  cases h with
  | notify hn =>
      obtain ⟨hr, w, x, hx, hserving, hreq⟩ := hs
      obtain ⟨y, hy, rfl | ⟨-, rfl⟩⟩ := (woken_notifyOne hn).back hx
      · exact ⟨hr, w, y, hy, hserving, hreq⟩
      · exact ⟨hr, w, _, hy, rfl, hreq⟩
  | acquire | sleep | room | push | unlock => exact hs

/-- What holds while the threads go on. -/
def Going (s : Pool τ) : Prop := Inv s ∧ Account s ∧ s.taskLedger.Fair ∧ s.roomLedger.Fair ∧ Staffed s

theorem going_step {a : Action τ} {s s' : Pool τ} (hs : Going s) (ha : Serving a)
    (hstep : step a s = some s') : Going s' ∧ s'.work < s.work := by
  obtain ⟨hinv, hacc, htask, hroom, hstaffed⟩ := hs
  have hmove := step_move hstep
  obtain ⟨htask', hroom'⟩ := hmove.ledgers hinv
  have hfair : ∀ {b b' : Ledger}, Follows b b' → b.Fair → b'.Fair := by
    rintro b b' (rfl | hb) hfair
    · exact hfair
    · exact hb.fair hfair
  have hgoing : Staffed s' ∧ s'.work < s.work := by
    cases a with
    | producer p choice =>
        obtain ⟨x, hx, hm⟩ := addTask_move hstep
        exact ⟨hm.staffed hstaffed, hm.work_lt hx⟩
    | worker w choice =>
        obtain ⟨x, hx, hm⟩ := defaultRoutine_move hstep
        exact ⟨hm.staffed hx hstaffed, hm.work_lt hx⟩
    | _ => exact absurd ha id
  exact ⟨⟨hmove.inv hinv, hmove.account hinv hacc, hfair htask' htask, hfair hroom' hroom,
    hgoing.1⟩, hgoing.2⟩

/-! ## Threads that can go on -/

/-- Who owns the mutex, and who does not need it, can go on. -/
theorem worker_goes_on {s : Pool τ} (hs : Inv s) {w : Nat} {x : Worker τ}
    (hx : s.threads[w]? = some x) (hwaiting : x.place ≠ .waiting) (hended : x.place ≠ .ended)
    (hfree : s.mutex = none ∨ x.place.inside = true) :
    ∃ choice s', step (.worker w choice) s = some s' := by
  have hlock : x.place.inside = false → ∃ s', s.lock (.worker w) = some s' := by
    intro hin
    rcases hfree with hm | h
    · exact ⟨_, by rw [Pool.lock, hm]⟩
    · exact absurd (h.symm.trans hin) (by decide)
  simp only [step, defaultRoutine, hx]
  cases hp : x.place with
  | waiting => exact absurd hp hwaiting
  | ended => exact absurd hp hended
  | lock | notified | cancelled =>
      obtain ⟨s', hs'⟩ := hlock (by rw [hp]; rfl)
      exact ⟨0, _, by simp only [hs', Option.map_some]; rfl⟩
  | check =>
      cases hasTask : s.hasTask with
      | true => exact ⟨0, _, rfl⟩
      | false => exact ⟨0, _, rfl⟩
  | take =>
      have htask := hs.taskThere w x hx (by rw [hp]; rfl)
      obtain ⟨t, rest, ht⟩ := List.exists_cons_of_ne_nil htask
      exact ⟨0, _, by simp only [ht]; rfl⟩
  | notify t =>
      obtain ⟨choice, ps, hn⟩ := exists_notifyOne ProducerAt.asleep ProducerAt.wake s.producers
      exact ⟨choice, _, by simp only [hn, Option.map_some]; rfl⟩
  | loop | cleanup | disable | unlock t | run t | enable | testcancel => exact ⟨0, _, rfl⟩

theorem caller_goes_on {s : Pool τ} {p : Nat} {x : ProducerAt τ} (hx : s.producers[p]? = some x)
    (houtside : x ≠ .outside) (hwaiting : x.asleep = false)
    (hfree : s.mutex = none ∨ x.inside = true) :
    ∃ choice s', step (.producer p choice) s = some s' := by
  have hlock : x.inside = false → ∃ s', s.lock (.producer p) = some s' := by
    intro hin
    rcases hfree with hm | h
    · exact ⟨_, by rw [Pool.lock, hm]⟩
    · exact absurd (h.symm.trans hin) (by decide)
  simp only [step, addTask, hx]
  cases x with
  | outside => exact absurd rfl houtside
  | waiting t => cases hwaiting
  | lock t | notified t =>
      obtain ⟨s', hs'⟩ := hlock rfl
      exact ⟨0, _, by simp only [hs', Option.map_some]; rfl⟩
  | check t =>
      cases hfull : s.dequeFull with
      | true => exact ⟨0, _, rfl⟩
      | false => exact ⟨0, _, rfl⟩
  | notify =>
      obtain ⟨choice, ts, hn⟩ := exists_notifyOne Worker.asleep Worker.wake s.threads
      exact ⟨choice, _, by simp only [hn, Option.map_some]; rfl⟩
  | push t | unlock => exact ⟨0, _, rfl⟩

/-- At rest nobody has the mutex, the workers sleep or have ended, and the callers sleep or are back. -/
theorem places_of_atRest {s : Pool τ} (hs : Inv s) (hrest : AtRest step Serving s) :
    (∀ (w : Nat) (x : Worker τ), s.threads[w]? = some x → x.place = .waiting ∨ x.place = .ended) ∧
      ∀ (p : Nat) (x : ProducerAt τ), s.producers[p]? = some x → x = .outside ∨ x.asleep = true := by
  have hworker : ∀ (w : Nat) (x : Worker τ), s.threads[w]? = some x →
      s.mutex = none ∨ x.place.inside = true → x.place = .waiting ∨ x.place = .ended := by
    intro w x hx hfree
    by_contra hplace
    obtain ⟨choice, s', hstep⟩ := worker_goes_on hs hx (fun h => hplace (.inl h))
      (fun h => hplace (.inr h)) hfree
    rw [hrest (.worker w choice) trivial] at hstep
    cases hstep
  have hcaller : ∀ (p : Nat) (x : ProducerAt τ), s.producers[p]? = some x →
      s.mutex = none ∨ x.inside = true → x = .outside ∨ x.asleep = true := by
    intro p x hx hfree
    by_contra hplace
    obtain ⟨choice, s', hstep⟩ := caller_goes_on hx (fun h => hplace (.inl h))
      (by simpa using fun h => hplace (.inr h)) hfree
    rw [hrest (.producer p choice) trivial] at hstep
    cases hstep
  have hfree : s.mutex = none := by
    cases hm : s.mutex with
    | none => rfl
    | some t =>
        -- the owner of the mutex is inside, where no thread has to wait
        have hin := (hs.exclusive t).mpr hm
        cases t with
        | worker w =>
            obtain ⟨x, hx, hxin⟩ := hin
            rcases hworker w x hx (.inr hxin) with hp | hp <;> rw [hp] at hxin <;> cases hxin
        | producer p =>
            obtain ⟨x, hx, hxin⟩ := hin
            rcases hcaller p x hx (.inr hxin) with rfl | hp
            · cases hxin
            · obtain ⟨t, rfl⟩ := ProducerAt.asleep_iff.mp hp
              cases hxin
  exact ⟨fun w x hx => hworker w x hx (.inl hfree), fun p x hx => hcaller p x hx (.inl hfree)⟩

/-- The deque is empty, every call of `add_task` has returned, and every task has been carried out. -/
def Done (s : Pool τ) : Prop :=
  s.tasks = [] ∧ (∀ x ∈ s.producers, x = .outside) ∧ s.added = s.taken.map Prod.snd ∧
    ∀ w, byWorker w s.finished = byWorker w s.taken

theorem done_of_atRest {s : Pool τ} (hs : Going s) (hrest : AtRest step Serving s) : Done s := by
  obtain ⟨hinv, hacc, htask, hroom, -, w, x, hx, hserving, -⟩ := hs
  obtain ⟨hworkers, hcallers⟩ := places_of_atRest hinv hrest
  have hthread : ∀ x ∈ s.threads, x.place = .waiting ∨ x.place = .ended := by
    intro x hx
    obtain ⟨w, hw⟩ := List.mem_iff_getElem?.mp hx
    exact hworkers w x hw
  have hcaller : ∀ x ∈ s.producers, x = .outside ∨ x.asleep = true := by
    intro x hx
    obtain ⟨p, hp⟩ := List.mem_iff_getElem?.mp hx
    exact hcallers p x hp
  -- nobody is on the way to a task or to a free place, and nobody owes a call
  have hlooking : workers WorkerAt.looking s = 0 := total_eq_zero fun x hx => by
    rcases hthread x hx with hp | hp <;> rw [hp] <;> rfl
  have howing : workers WorkerAt.owing s = 0 := total_eq_zero fun x hx => by
    rcases hthread x hx with hp | hp <;> rw [hp] <;> rfl
  have hlooking' : callers ProducerAt.looking s = 0 := total_eq_zero fun x hx => by
    rcases hcaller x hx with rfl | hp
    · rfl
    · obtain ⟨t, rfl⟩ := ProducerAt.asleep_iff.mp hp
      rfl
  have howing' : callers ProducerAt.owing s = 0 := total_eq_zero fun x hx => by
    rcases hcaller x hx with rfl | hp
    · rfl
    · obtain ⟨t, rfl⟩ := ProducerAt.asleep_iff.mp hp
      rfl
  have hempty : s.tasks.length = 0 := by
    have hwaiting : x.place = .waiting := by
      rcases hworkers w x hx with hp | hp
      · exact hp
      · rw [hp] at hserving
        cases hserving
    have hle := le_total (f := fun x : Worker τ => x.place.sleeping) hx
    rw [hwaiting] at hle
    have hunits : s.tasks.length ≤ workers WorkerAt.looking s + callers ProducerAt.owing s := htask hle
    omega
  have hnil := List.length_eq_zero_iff.mp hempty
  refine ⟨hnil, ?_, ?_, ?_⟩
  · intro y hy
    rcases hcaller y hy with h | hp
    · exact h
    · -- a caller that sleeps would have every place of the deque to itself
      obtain ⟨t, rfl⟩ := ProducerAt.asleep_iff.mp hp
      obtain ⟨p, hp⟩ := List.mem_iff_getElem?.mp hy
      have hle : 1 ≤ callers ProducerAt.sleeping s := le_total (f := ProducerAt.sleeping) hp
      have hunits : 1001 - s.tasks.length ≤
        callers ProducerAt.looking s + workers WorkerAt.owing s := hroom hle
      omega
  · rw [hacc.order, hnil, List.append_nil]
  · intro v
    have hhand : inHand s.threads v = none := by
      cases hv : s.threads[v]? with
      | none => simp [inHand, hv]
      | some y => rcases hworkers v y hv with hp | hp <;> simp [inHand, hv, hp, WorkerAt.inHand]
    rw [hacc.hands v, hhand, Option.toList_none, List.append_nil]

/-- **Every task is carried out**, when the pool is left to serve. Once it is running and has a worker that
stays, whatever order its threads go in: they come to rest, and then everything has been done. -/
theorem every_task_carried_out {n m : Nat} {as : List (Action τ)} {s : Pool τ}
    (hrun : exec step as (Pool.new n m) = some s) (hstaffed : Staffed s) :
    (∀ (bs : List (Action τ)) (s' : Pool τ), (∀ b ∈ bs, Serving b) → exec step bs s = some s' →
      bs.length ≤ s.work ∧ (AtRest step Serving s' → Done s')) ∧
    ∃ (bs : List (Action τ)) (s' : Pool τ), (∀ b ∈ bs, Serving b) ∧ exec step bs s = some s' ∧
      AtRest step Serving s' := by
  obtain ⟨htask, hroom⟩ := fair_exec hrun
  have hs : Going s := ⟨inv_exec hrun, account_exec hrun, htask, hroom, hstaffed⟩
  have hstep : ∀ (s : Pool τ) a s', Going s → Serving a → step a s = some s' →
      Going s' ∧ s'.work < s.work := fun _ _ _ => going_step
  refine ⟨?_, exists_atRest hstep hs⟩
  intro bs s' hall hbs
  have hs' := exec_invariant Going Serving (fun s a s' hs ha h => (hstep s a s' hs ha h).1) hs hall hbs
  exact ⟨Nat.le_of_add_right_le (length_add_measure_le hstep hs hall hbs), done_of_atRest hs'⟩

/-- A worker has been started and a call is under way. -/
def startedRun : List (Action Nat) := [.start, .owner, .owner, .call 0 7]

theorem every_task_carried_out_started :
    ∃ s, exec step startedRun (Pool.new 1 1) = some s ∧
      ∃ (bs : List (Action Nat)) (s' : Pool Nat), (∀ b ∈ bs, Serving b) ∧ exec step bs s = some s' ∧
        AtRest step Serving s' := by
  have hrun : exec step startedRun (Pool.new 1 1) = some _ := rfl
  exact ⟨_, hrun, (every_task_carried_out hrun ⟨rfl, 0, Worker.fresh, rfl, rfl, rfl⟩).2⟩

end Unp.ThreadPool

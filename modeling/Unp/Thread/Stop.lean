import Unp.Thread.Account

/-!
# What `stop` does to the workers

`stop` clears `_running` and wakes everybody, but the loop around `wait` asks for a task only. So a
worker that has got past `while(_running)` still takes one task, and no more than one
(`takes_one_more`); and a worker that finds no task goes back to sleep and never ends
(`idle_worker_stays`).
-/

namespace Unp.ThreadPool

open Unp.Monitor Unp.Schedule

variable {τ : Type}

/-- Only `start` sets `_running`. -/
theorem stays_stopped {a : Action τ} {s s' : Pool τ} (hstart : a ≠ .start) (hs : s.running = false)
    (h : step a s = some s') : s'.running = false := by
  cases a with
  | start => exact absurd rfl hstart
  | worker w choice =>
      obtain ⟨x, hx, hmove⟩ := defaultRoutine_move h
      cases hmove <;> exact hs
  | producer p choice =>
      obtain ⟨x, hx, hmove⟩ := addTask_move h
      cases hmove <;> exact hs
  | setNumOfThreads n =>
      obtain ⟨-, rfl⟩ := whenIdle_eq_some h
      exact hs
  | stop =>
      obtain ⟨-, rfl⟩ := whenIdle_eq_some h
      rfl
  | cancel =>
      obtain ⟨-, rfl⟩ := whenIdle_eq_some h
      exact hs
  | wait =>
      obtain ⟨-, rfl⟩ := whenIdle_eq_some h
      exact hs
  | call p t =>
      simp only [step] at h
      split at h <;> cases h
      exact hs
  | wakeProducer p =>
      simp only [step] at h
      split at h
      · split at h <;> cases h
        exact hs
      · cases h
  | wakeWorker w =>
      simp only [step] at h
      split at h
      · split at h <;> cases h
        exact hs
      · cases h
  | cancellationPoint w =>
      simp only [step, cancellationPoint] at h
      split at h
      · cases h
      · split at h
        · split at h <;> cases h <;> exact hs
        · cases h
  | owner =>
      simp only [step, ownerStep] at h
      split at h
      · cases h
      · cases h
        exact hs
      · cases h
        exact hs
      · cases h
        exact hs
      · cases h
        exact hs
      · cases h
        exact hs
      · split at h <;> cases h <;> exact hs
      · split at h
        · cases h
          exact hs
        · split at h
          · split at h <;> cases h
            exact hs
          · cases h
            exact hs

/-! ## At most one more task -/

/-- The worker is past `while(_running)` and has not taken a task since. -/
def WorkerAt.mayTake : WorkerAt τ → Nat
  | .lock | .check | .waiting | .notified | .disable | .take => 1
  | _ => 0

def mayTake (ts : List (Worker τ)) (w : Nat) : Nat := (ts[w]?.map fun x => x.place.mayTake).getD 0

theorem mayTake_le (ts : List (Worker τ)) (w : Nat) : mayTake ts w ≤ 1 := by
  unfold mayTake
  cases ts[w]? with
  | none => exact Nat.zero_le _
  | some x =>
      show x.place.mayTake ≤ 1
      unfold WorkerAt.mayTake
      split <;> decide

theorem mayTake_of_some {ts : List (Worker τ)} {w : Nat} {x : Worker τ} (hx : ts[w]? = some x) :
    mayTake ts w = x.place.mayTake := by
  rw [mayTake, hx]
  rfl

theorem mayTake_of_none {ts : List (Worker τ)} {w : Nat} (hx : ts[w]? = none) : mayTake ts w = 0 := by
  rw [mayTake, hx]
  rfl

theorem mayTake_set {ts : List (Worker τ)} {w : Nat} {x : Worker τ} (hx : ts[w]? = some x)
    (y : Worker τ) (v : Nat) :
    mayTake (ts.set w y) v = if w = v then y.place.mayTake else mayTake ts v := by
  rw [mayTake, getElem?_set_of_some hx]
  split <;> rfl

theorem mayTake_set_le {ts : List (Worker τ)} {w : Nat} {x y : Worker τ} (hx : ts[w]? = some x)
    (hle : y.place.mayTake ≤ x.place.mayTake) (v : Nat) : mayTake (ts.set w y) v ≤ mayTake ts v := by
  rw [mayTake_set hx]
  split
  · next hv =>
      subst hv
      rwa [mayTake_of_some hx]
  · exact Nat.le_refl _

theorem mayTake_woken {ts ts' : List (Worker τ)} (h : Woken Worker.asleep Worker.wake ts ts')
    (w : Nat) : mayTake ts' w = mayTake ts w := by
  cases hy : ts'[w]? with
  | none =>
      rw [mayTake_of_none hy, mayTake_of_none]
      exact List.getElem?_eq_none (h.1 ▸ List.getElem?_eq_none_iff.mp hy)
  | some y =>
      obtain ⟨x, hx, rfl | ⟨hs, rfl⟩⟩ := h.2 w y hy
      · rw [mayTake_of_some hx, mayTake_of_some hy]
      · rw [mayTake_of_some hx, mayTake_of_some hy, Worker.asleep_iff.mp hs]
        rfl

theorem mayTake_samePlaces {ts ts' : List (Worker τ)} (h : SamePlaces ts ts') (w : Nat) :
    mayTake ts' w = mayTake ts w := by
  cases hy : ts'[w]? with
  | none =>
      rw [mayTake_of_none hy, mayTake_of_none]
      exact List.getElem?_eq_none (h.length_eq ▸ List.getElem?_eq_none_iff.mp hy)
  | some y =>
      obtain ⟨x, hx, hp, -⟩ := h.same w y hy
      rw [mayTake_of_some hx, mayTake_of_some hy, hp]

theorem mayTake_append_fresh (ts : List (Worker τ)) (w : Nat) :
    mayTake (ts ++ [Worker.fresh]) w ≤ mayTake ts w := by
  cases hy : (ts ++ [Worker.fresh])[w]? with
  | none =>
      rw [mayTake_of_none hy]
      exact Nat.zero_le _
  | some y =>
      rcases getElem?_append_fresh hy with hx | ⟨-, rfl⟩
      · rw [mayTake_of_some hx, mayTake_of_some hy]
      · rw [mayTake_of_some hy]
        exact Nat.zero_le _

/-- How many tasks the worker has taken, with the one that it may still take. -/
def bound (s : Pool τ) (w : Nat) : Nat := (byWorker w s.taken).length + mayTake s.threads w

theorem Quiet.mayTake_le {s : Pool τ} {x y : Worker τ} (h : Quiet s x y) (hs : s.running = false) :
    y.place.mayTake ≤ x.place.mayTake := by
  cases h <;> simp_all [Worker.go, WorkerAt.mayTake]

theorem bound_le_of_taken {s s' : Pool τ} (htaken : s'.taken = s.taken) {w : Nat}
    (hle : mayTake s'.threads w ≤ mayTake s.threads w) : bound s' w ≤ bound s w := by
  rw [bound, bound, htaken]
  exact Nat.add_le_add_left hle _

theorem bound_le_of_worker {s s' : Pool τ} {w : Nat} {x y : Worker τ} (hx : s.threads[w]? = some x)
    (htaken : s'.taken = s.taken) (hthreads : s'.threads = s.threads.set w y)
    (hle : y.place.mayTake ≤ x.place.mayTake) {v : Nat} : bound s' v ≤ bound s v :=
  bound_le_of_taken htaken (hthreads ▸ mayTake_set_le hx hle v)

theorem Move.bound_le {s s' : Pool τ} (h : Move s s') (hs : s.running = false) (v : Nat) :
    bound s' v ≤ bound s v := by
  cases h with
  | @worker w x _ hx hmove =>
      cases hmove with
      | quiet hq => exact bound_le_of_worker hx (by rfl) (by rfl) (hq.mayTake_le hs)
      | acquire hm hp =>
          refine bound_le_of_worker hx (by rfl) (by rfl) ?_
          rcases hp with hp | hp <;> rw [hp] <;> exact Nat.le_refl 1
      | sleep hp ht => exact bound_le_of_worker hx (by rfl) (by rfl) (by rw [hp]; exact Nat.le_refl 1)
      | @take t rest hp ht =>
          -- the task is taken, and there will not be another one
          show (byWorker v (s.taken ++ [(w, t)])).length + mayTake (s.threads.set w _) v ≤ bound s v
          rw [byWorker_append, byWorker_singleton, mayTake_set hx, bound, List.length_append]
          by_cases hv : w = v
          · subst hv
            rw [if_pos rfl, if_pos rfl, mayTake_of_some hx, hp]
            exact Nat.le_refl _
          · rw [if_neg hv, if_neg hv]
            exact Nat.le_refl _
      | notify hp hn => exact bound_le_of_worker hx (by rfl) (by rfl) (by exact Nat.zero_le _)
      | unlock hp => exact bound_le_of_worker hx (by rfl) (by rfl) (by exact Nat.zero_le _)
      | finish hp => exact bound_le_of_worker hx (by rfl) (by rfl) (by exact Nat.zero_le _)
      | reacquire hm hp => exact bound_le_of_worker hx (by rfl) (by rfl) (by exact Nat.zero_le _)
      | cleanup hp => exact bound_le_of_worker hx (by rfl) (by rfl) (by exact Nat.zero_le _)
  | producer hx hmove =>
      cases hmove with
      | notify hn =>
          exact bound_le_of_taken (by rfl) (Nat.le_of_eq (mayTake_woken (woken_notifyOne hn) v))
      | acquire | sleep | room | push | unlock => exact bound_le_of_taken (by rfl) (Nat.le_refl _)
  | call hp => exact Nat.le_refl _
  | wakeProducers hw => exact Nat.le_refl _
  | wakeWorkers hw => exact bound_le_of_taken (by rfl) (Nat.le_of_eq (mayTake_woken hw v))
  | cancelWait hx hp hr => exact bound_le_of_worker hx (by rfl) (by rfl) (by exact Nat.zero_le _)
  | cancelRun hx hp hc hr => exact bound_le_of_worker hx (by rfl) (by rfl) (by exact Nat.zero_le _)
  | spawn => exact bound_le_of_taken (by rfl) (mayTake_append_fresh _ v)
  | flags hts => exact bound_le_of_taken (by rfl) (Nat.le_of_eq (mayTake_samePlaces hts v))

/-- From `stop` until the pool is started again no worker takes more than one task, however many there
are in the deque. -/
theorem takes_one_more {as : List (Action τ)} {s s' : Pool τ} (hs : s.running = false)
    (hall : ∀ a ∈ as, a ≠ .start) (hrun : exec step as s = some s') (w : Nat) :
    (byWorker w s'.taken).length ≤ (byWorker w s.taken).length + 1 := by
  have hinv : s'.running = false ∧ bound s' w ≤ bound s w := by
    refine exec_invariant (fun m => m.running = false ∧ bound m w ≤ bound s w) (fun a => a ≠ .start)
      ?_ ⟨hs, Nat.le_refl _⟩ hall hrun
    rintro m a m' ⟨hm, hle⟩ ha hstep
    exact ⟨stays_stopped ha hm hstep, Nat.le_trans ((step_move hstep).bound_le hm w) hle⟩
  calc (byWorker w s'.taken).length ≤ bound s' w := Nat.le_add_right ..
    _ ≤ bound s w := hinv.2
    _ ≤ (byWorker w s.taken).length + 1 := Nat.add_le_add_left (mayTake_le s.threads w) _

/-! ## A worker without a task stays -/

/-- Between `while(_running)` and a task. -/
def WorkerAt.idle : WorkerAt τ → Bool
  | .lock | .check | .waiting | .notified => true
  | _ => false

def IdleAt (w : Nat) (ts : List (Worker τ)) : Prop :=
  ∃ x, ts[w]? = some x ∧ x.place.idle = true ∧ x.cancelRequested = false

/-- The pool has been stopped with nothing to do, and nobody is cancelling. -/
structure StoppedIdle (w : Nat) (s : Pool τ) : Prop where
  stopped : s.running = false
  notCancelling : ∀ i, s.owner ≠ .cancel i
  nothing : s.tasks = []
  outside : ∀ x ∈ s.producers, x = .outside
  idle : IdleAt w s.threads

theorem IdleAt.set {w v : Nat} {ts : List (Worker τ)} {x y : Worker τ} (h : IdleAt w ts)
    (hx : ts[v]? = some x) (hy : v = w → x.place.idle = true → x.cancelRequested = false →
      y.place.idle = true ∧ y.cancelRequested = false) : IdleAt w (ts.set v y) := by
  obtain ⟨z, hz, hidle, hreq⟩ := h
  unfold IdleAt
  rw [getElem?_set_of_some hx]
  by_cases hv : v = w
  · subst hv
    cases hz.symm.trans hx
    exact ⟨y, if_pos rfl, hy rfl hidle hreq⟩
  · exact ⟨z, by rw [if_neg hv]; exact hz, hidle, hreq⟩

theorem IdleAt.woken {w : Nat} {ts ts' : List (Worker τ)} (h : IdleAt w ts)
    (hw : Woken Worker.asleep Worker.wake ts ts') : IdleAt w ts' := by
  obtain ⟨x, hx, hidle, hreq⟩ := h
  obtain ⟨y, hy, rfl | ⟨-, rfl⟩⟩ := hw.back hx
  · exact ⟨y, hy, hidle, hreq⟩
  · exact ⟨_, hy, rfl, hreq⟩

theorem Quiet.idle {s : Pool τ} {x y : Worker τ} (h : Quiet s x y) (hs : s.tasks = [])
    (hx : x.place.idle = true) : y.place.idle = true ∧ y.cancelRequested = x.cancelRequested := by
  cases h <;> simp_all [WorkerAt.idle]

theorem WorkerMove.stoppedIdle {w v : Nat} {s s' : Pool τ} {x : Worker τ}
    (h : WorkerMove v s x s') (hx : s.threads[v]? = some x) (hs : StoppedIdle w s) :
    StoppedIdle w s' := by
  obtain ⟨hstopped, hcancel, hnothing, houtside, hidle⟩ := hs
  cases h with
  | quiet hq =>
      refine ⟨hstopped, hcancel, hnothing, houtside, hidle.set hx fun _ hp hreq => ?_⟩
      obtain ⟨hy, hreq'⟩ := hq.idle hnothing hp
      exact ⟨hy, hreq'.trans hreq⟩
  | acquire hm hp =>
      exact ⟨hstopped, hcancel, hnothing, houtside, hidle.set hx fun _ _ hreq => ⟨rfl, hreq⟩⟩
  | sleep hp ht =>
      exact ⟨hstopped, hcancel, hnothing, houtside, hidle.set hx fun _ _ hreq => ⟨rfl, hreq⟩⟩
  | take hp ht =>
      rw [hnothing] at ht
      cases ht
  | notify hp hn =>
      refine ⟨hstopped, hcancel, hnothing, ?_, hidle.set hx (by rw [hp]; exact nofun)⟩
      rcases notifyOne_cases hn with ⟨-, rfl⟩ | ⟨y, hy, hasleep, -⟩
      · exact houtside
      · rw [houtside y (List.mem_of_getElem? hy)] at hasleep
        cases hasleep
  | unlock hp | finish hp | reacquire hm hp | cleanup hp =>
      exact ⟨hstopped, hcancel, hnothing, houtside, hidle.set hx (by rw [hp]; exact nofun)⟩

theorem ownerStep_stoppedIdle {w : Nat} {s s' : Pool τ} (h : ownerStep s = some s')
    (hs : StoppedIdle w s) : StoppedIdle w s' := by
  obtain ⟨hstopped, hcancel, hnothing, houtside, hidle⟩ := hs
  unfold ownerStep at h
  split at h
  · cases h
  · cases h
    exact ⟨hstopped, nofun, hnothing, houtside, hidle⟩
  · cases h
    obtain ⟨x, hx, hplace⟩ := hidle
    exact ⟨hstopped, nofun, hnothing, houtside, x, getElem?_append_of_some hx, hplace⟩
  · cases h
    exact ⟨hstopped, nofun, hnothing, houtside, hidle.woken (woken_notifyAll _)⟩
  · cases h
    refine ⟨hstopped, nofun, hnothing, ?_, hidle⟩
    intro y hy
    obtain ⟨x, hx, rfl⟩ := List.mem_map.mp hy
    rw [houtside x hx]
    rfl
  · cases h
    obtain ⟨x, hx, hplace⟩ := hidle
    exact ⟨hstopped, nofun, hnothing, houtside, { x with joinable := false },
      by rw [List.getElem?_map, hx]; rfl, hplace⟩
  · next i howner => exact absurd howner (hcancel i)
  · split at h
    · cases h
      exact ⟨hstopped, nofun, hnothing, houtside, hidle⟩
    · next x hx =>
        split at h
        · split at h <;> cases h
          exact ⟨hstopped, nofun, hnothing, houtside, hidle.set hx fun _ hp hreq => ⟨hp, hreq⟩⟩
        · cases h
          exact ⟨hstopped, nofun, hnothing, houtside, hidle⟩

theorem stoppedIdle_step {w : Nat} {a : Action τ} {s s' : Pool τ} (hstart : a ≠ .start)
    (hcall : ∀ p t, a ≠ .call p t) (hs : StoppedIdle w s) (h : step a s = some s') :
    StoppedIdle w s' := by
  cases a with
  | start => exact absurd rfl hstart
  | call p t => exact absurd rfl (hcall p t)
  | worker v choice =>
      obtain ⟨x, hx, hmove⟩ := defaultRoutine_move h
      exact hmove.stoppedIdle hx hs
  | producer p choice =>
      obtain ⟨x, hx, hmove⟩ := addTask_move h
      have hout := hs.outside x (List.mem_of_getElem? hx)
      subst hout
      cases hmove with
      | acquire hm hp => rcases hp with hp | hp <;> cases hp
  | wakeProducer p =>
      simp only [step] at h
      split at h
      · next x hx =>
          rw [hs.outside x (List.mem_of_getElem? hx)] at h
          cases h
      · cases h
  | wakeWorker v =>
      simp only [step] at h
      split at h
      · next x hx =>
          split at h <;> cases h
          exact ⟨hs.stopped, hs.notCancelling, hs.nothing, hs.outside,
            hs.idle.set hx fun _ _ hreq => ⟨rfl, hreq⟩⟩
      · cases h
  | cancellationPoint v =>
      simp only [step, cancellationPoint] at h
      split at h
      · cases h
      · next x hx =>
          split at h
          · next hc =>
              have hreq : x.cancelRequested = true := by simp_all
              have hidle : ∀ y, IdleAt w (s.threads.set v y) :=
                fun y => hs.idle.set hx fun _ _ hno => absurd (hreq.symm.trans hno) (by decide)
              split at h <;> cases h
              · exact ⟨hs.stopped, hs.notCancelling, hs.nothing, hs.outside, hidle _⟩
              · exact ⟨hs.stopped, hs.notCancelling, hs.nothing, hs.outside, hidle _⟩
          · cases h
  | setNumOfThreads n =>
      obtain ⟨howner, rfl⟩ := whenIdle_eq_some h
      exact ⟨hs.stopped, hs.notCancelling, hs.nothing, hs.outside, hs.idle⟩
  | stop =>
      obtain ⟨howner, rfl⟩ := whenIdle_eq_some h
      exact ⟨rfl, fun i => by simp, hs.nothing, hs.outside, hs.idle⟩
  | cancel =>
      obtain ⟨howner, rfl⟩ := whenIdle_eq_some h
      exact ⟨hs.stopped, by simp [hs.stopped], hs.nothing, hs.outside, hs.idle⟩
  | wait =>
      obtain ⟨howner, rfl⟩ := whenIdle_eq_some h
      exact ⟨hs.stopped, fun i => by simp, hs.nothing, hs.outside, hs.idle⟩
  | owner => exact ownerStep_stoppedIdle h hs

/-- A worker that has nothing to do when the pool is stopped never ends: whatever happens, short of a
new task or a new start, it is asleep or on its way to the deque and back. -/
theorem idle_worker_stays {w : Nat} {as : List (Action τ)} {s s' : Pool τ} (hs : StoppedIdle w s)
    (hall : ∀ a ∈ as, a ≠ .start ∧ ∀ p t, a ≠ .call p t) (hrun : exec step as s = some s') :
    ∃ x, s'.threads[w]? = some x ∧ x.place ≠ .ended ∧ inHand s'.threads w = none := by
  have hs' := exec_invariant (StoppedIdle w) (fun a => a ≠ .start ∧ ∀ p t, a ≠ .call p t)
    (fun s a s' hs ha h => stoppedIdle_step ha.1 ha.2 hs h) hs hall hrun
  obtain ⟨x, hx, hidle, -⟩ := hs'.idle
  refine ⟨x, hx, ?_, ?_⟩
  · intro hp
    rw [hp] at hidle
    cases hidle
  · rw [inHand, hx]
    show x.place.inHand = none
    cases hp : x.place <;> rw [hp] at hidle <;> first | rfl | cases hidle

/-- A worker goes to sleep, and the pool is stopped. -/
def stoppedPool : Pool Nat :=
  (exec step [.start, .owner, .owner, .worker 0 0, .worker 0 0, .worker 0 0, .stop]
    (Pool.new 1 1)).getD (Pool.new 0 0)

/-- The worker is woken, finds nothing and sleeps again. -/
theorem idle_worker_stays_woken :
    ∃ s, exec step [.owner, .owner, .owner, .worker 0 0, .worker 0 0] stoppedPool = some s ∧
      ∃ x, s.threads[0]? = some x ∧ x.place ≠ .ended ∧ inHand s.threads 0 = none := by
  have hrun : exec step [.owner, .owner, .owner, .worker 0 0, .worker 0 0] stoppedPool = some _ := rfl
  refine ⟨_, hrun, idle_worker_stays ⟨rfl, ?_, rfl, ?_, _, rfl, rfl, rfl⟩ ?_ hrun⟩
  · intro i h
    cases h
  · intro x hx
    exact List.mem_singleton.mp hx
  · simp

/-- The worker takes a task that is added after all. -/
def lateRun : List (Action Nat) :=
  [.call 0 7, .producer 0 0, .producer 0 0, .producer 0 0, .producer 0 0, .producer 0 0, .worker 0 0,
    .worker 0 0, .worker 0 0, .worker 0 0]

theorem takes_one_more_late :
    ∃ s, exec step lateRun stoppedPool = some s ∧ byWorker 0 s.taken = [7] ∧
      (byWorker 0 s.taken).length ≤ (byWorker 0 stoppedPool.taken).length + 1 := by
  have hrun : exec step lateRun stoppedPool = some _ := rfl
  refine ⟨_, hrun, rfl, takes_one_more rfl ?_ hrun 0⟩
  simp [lateRun]

end Unp.ThreadPool

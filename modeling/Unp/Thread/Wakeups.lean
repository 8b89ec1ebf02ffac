import Unp.Thread.Safety

/-!
# No wakeup is lost

`_has_task_cv` counts tasks: `add_task` adds one and owes a `notify_one` for it, a worker looks for one
and sleeps when there is none. `_deque_full_cv` is the same the other way round: a worker that takes a
task adds a free place, and a caller looks for one. Each of them, with the numbers of threads and of
units in the pool, is a `Ledger`, and every step of the pool is a step of both or leaves them alone
(`Move.taskLedger`, `Move.roomLedger`).
-/

namespace Unp.ThreadPool

open Unp.Monitor Unp.Schedule

variable {τ : Type}

/-! ## The numbers -/

/-- The worker will look into the deque before it sleeps again, and takes what it finds. -/
def WorkerAt.looking : WorkerAt τ → Nat
  | .notified | .check | .disable | .take => 1
  | _ => 0

/-- The worker has made a place free and not told anybody yet. -/
def WorkerAt.owing : WorkerAt τ → Nat
  | .notify _ => 1
  | _ => 0

def WorkerAt.sleeping : WorkerAt τ → Nat
  | .waiting => 1
  | _ => 0

def ProducerAt.looking : ProducerAt τ → Nat
  | .notified _ | .check _ | .push _ => 1
  | _ => 0

def ProducerAt.owing : ProducerAt τ → Nat
  | .notify => 1
  | _ => 0

def ProducerAt.sleeping : ProducerAt τ → Nat
  | .waiting _ => 1
  | _ => 0

def workers (f : WorkerAt τ → Nat) (s : Pool τ) : Nat := total (fun x => f x.place) s.threads

def callers (f : ProducerAt τ → Nat) (s : Pool τ) : Nat := total f s.producers

def Pool.taskLedger (s : Pool τ) : Ledger where
  asleep := workers WorkerAt.sleeping s
  looking := workers WorkerAt.looking s
  owing := callers ProducerAt.owing s
  units := s.tasks.length

def Pool.roomLedger (s : Pool τ) : Ledger where
  asleep := callers ProducerAt.sleeping s
  looking := callers ProducerAt.looking s
  owing := workers WorkerAt.owing s
  units := 1001 - s.tasks.length

section Numbers
variable {s : Pool τ}

/-- A sum over the workers when one of them goes from `x` to `y`. -/
theorem workers_set {w : Nat} {x : Worker τ} (hx : s.threads[w]? = some x) (f : WorkerAt τ → Nat)
    (y : Worker τ) :
    total (fun x => f x.place) (s.threads.set w y) + f x.place = workers f s + f y.place :=
  total_set (f := fun x => f x.place) hx

theorem callers_set {p : Nat} {x : ProducerAt τ} (hx : s.producers[p]? = some x)
    (f : ProducerAt τ → Nat) (y : ProducerAt τ) :
    total f (s.producers.set p y) + f x = callers f s + f y :=
  total_set hx

theorem worker_numbers {w : Nat} {x : Worker τ} (hx : s.threads[w]? = some x) (y : Worker τ) :
    total (fun x => x.place.sleeping) (s.threads.set w y) + x.place.sleeping =
        workers WorkerAt.sleeping s + y.place.sleeping ∧
      total (fun x => x.place.looking) (s.threads.set w y) + x.place.looking =
        workers WorkerAt.looking s + y.place.looking ∧
      total (fun x => x.place.owing) (s.threads.set w y) + x.place.owing =
        workers WorkerAt.owing s + y.place.owing :=
  ⟨workers_set hx WorkerAt.sleeping y, workers_set hx WorkerAt.looking y,
    workers_set hx WorkerAt.owing y⟩

theorem caller_numbers {p : Nat} {x : ProducerAt τ} (hx : s.producers[p]? = some x)
    (y : ProducerAt τ) :
    total ProducerAt.sleeping (s.producers.set p y) + x.sleeping =
        callers ProducerAt.sleeping s + y.sleeping ∧
      total ProducerAt.looking (s.producers.set p y) + x.looking =
        callers ProducerAt.looking s + y.looking ∧
      total ProducerAt.owing (s.producers.set p y) + x.owing =
        callers ProducerAt.owing s + y.owing :=
  ⟨callers_set hx ProducerAt.sleeping y, callers_set hx ProducerAt.looking y,
    callers_set hx ProducerAt.owing y⟩

theorem workers_samePlaces {ts ts' : List (Worker τ)} (h : SamePlaces ts ts') (f : WorkerAt τ → Nat) :
    total (fun x => f x.place) ts' = total (fun x => f x.place) ts := by
  suffices heq : ts'.map (fun x => f x.place) = ts.map fun x => f x.place by rw [total, total, heq]
  refine List.ext_getElem (by simp [h.length_eq]) ?_
  intro i hi hi'
  rw [List.length_map] at hi
  obtain ⟨x, hx, hp, -⟩ := h.same i _ (List.getElem?_eq_getElem hi)
  obtain ⟨hlt, rfl⟩ := List.getElem?_eq_some_iff.mp hx
  simp [hp]

/-- Waking turns sleepers into threads that look; no other number changes. -/
theorem woken_workers {ts : List (Worker τ)} (h : Woken Worker.asleep Worker.wake s.threads ts) :
    total (fun x => x.place.sleeping) ts ≤ workers WorkerAt.sleeping s ∧
      total (fun x => x.place.sleeping) ts + total (fun x => x.place.looking) ts =
        workers WorkerAt.sleeping s + workers WorkerAt.looking s ∧
      total (fun x => x.place.owing) ts = workers WorkerAt.owing s := by
  have hwake : ∀ {x : Worker τ}, x.asleep = true → x.place = .waiting := Worker.asleep_iff.mp
  refine ⟨h.total_le fun x _ => Nat.zero_le _, ?_, h.total_eq fun x hx => ?_⟩
  · have hsum := h.total_eq (f := fun x => x.place.sleeping + x.place.looking) fun x hx => by
      rw [hwake hx]
      rfl
    simpa only [total, List.sum_map_add, workers] using hsum
  · rw [hwake hx]
    rfl

theorem woken_callers {ps : List (ProducerAt τ)}
    (h : Woken ProducerAt.asleep ProducerAt.wake s.producers ps) :
    total ProducerAt.sleeping ps ≤ callers ProducerAt.sleeping s ∧
      total ProducerAt.sleeping ps + total ProducerAt.looking ps =
        callers ProducerAt.sleeping s + callers ProducerAt.looking s ∧
      total ProducerAt.owing ps = callers ProducerAt.owing s := by
  have hwake : ∀ {x : ProducerAt τ}, x.asleep = true → ∃ t, x = .waiting t :=
    ProducerAt.asleep_iff.mp
  refine ⟨h.total_le fun x hx => ?_, ?_, h.total_eq fun x hx => ?_⟩
  · obtain ⟨t, rfl⟩ := hwake hx
    exact Nat.zero_le _
  · have hsum := h.total_eq (f := fun x => x.sleeping + x.looking) fun x hx => by
      obtain ⟨t, rfl⟩ := hwake hx
      rfl
    simpa only [total, List.sum_map_add, callers] using hsum
  · obtain ⟨t, rfl⟩ := hwake hx
    rfl

/-- `_has_task_cv.notify_one()`: nobody sleeps, or one sleeper less and one thread more that looks. -/
theorem notify_workers {choice : Nat} {ts : List (Worker τ)}
    (h : notifyOne Worker.asleep Worker.wake choice s.threads = some ts) :
    workers WorkerAt.sleeping s = 0 ∧ ts = s.threads ∨
      total (fun x => x.place.sleeping) ts + 1 = workers WorkerAt.sleeping s ∧
        total (fun x => x.place.looking) ts = workers WorkerAt.looking s + 1 := by
  rcases notifyOne_cases h with ⟨hnone, rfl⟩ | ⟨x, hx, hs, rfl⟩
  · refine Or.inl ⟨total_eq_zero ?_, rfl⟩
    intro x hx
    have hno := hnone x hx
    unfold WorkerAt.sleeping
    split
    · next hp => simp [Worker.asleep, hp, WorkerAt.asleep] at hno
    · rfl
  · have hsleeping := workers_set hx WorkerAt.sleeping x.wake
    have hlooking := workers_set hx WorkerAt.looking x.wake
    rw [Worker.asleep_iff.mp hs] at hsleeping hlooking
    exact Or.inr ⟨hsleeping, hlooking⟩

theorem notify_callers {choice : Nat} {ps : List (ProducerAt τ)}
    (h : notifyOne ProducerAt.asleep ProducerAt.wake choice s.producers = some ps) :
    callers ProducerAt.sleeping s = 0 ∧ ps = s.producers ∨
      total ProducerAt.sleeping ps + 1 = callers ProducerAt.sleeping s ∧
        total ProducerAt.looking ps = callers ProducerAt.looking s + 1 := by
  rcases notifyOne_cases h with ⟨hnone, rfl⟩ | ⟨x, hx, hs, rfl⟩
  · refine Or.inl ⟨total_eq_zero ?_, rfl⟩
    intro x hx
    have hno := hnone x hx
    unfold ProducerAt.sleeping
    split
    · simp [ProducerAt.asleep] at hno
    · rfl
  · obtain ⟨t, rfl⟩ := ProducerAt.asleep_iff.mp hs
    exact Or.inr ⟨callers_set hx ProducerAt.sleeping _, callers_set hx ProducerAt.looking _⟩

end Numbers

/-! ## A step of the pool is a step of both ledgers -/

/-- The ledger is left alone, or makes a step of its own. -/
def Follows (b b' : Ledger) : Prop := b' = b ∨ Ledger.Step b b'

theorem Follows.of_eq {b b' : Ledger} (ha : b'.asleep = b.asleep) (hl : b'.looking = b.looking)
    (ho : b'.owing = b.owing) (hu : b'.units = b.units) : Follows b b' := by
  cases b
  cases b'
  simp only at ha hl ho hu
  subst ha hl ho hu
  exact Or.inl rfl

theorem Quiet.numbers {s : Pool τ} {x y : Worker τ} (h : Quiet s x y) :
    y.place.sleeping = x.place.sleeping ∧ y.place.looking = x.place.looking ∧
      y.place.owing = x.place.owing := by
  cases h <;>
    simp_all [Worker.go, WorkerAt.sleeping, WorkerAt.looking, WorkerAt.owing]

theorem WorkerMove.ledgers {w : Nat} {s s' : Pool τ} {x : Worker τ} (h : WorkerMove w s x s')
    (hx : s.threads[w]? = some x) (hs : s.tasks.length ≤ 1001) :
    Follows s.taskLedger s'.taskLedger ∧ Follows s.roomLedger s'.roomLedger := by
  cases h with
  | @quiet y hq =>
      obtain ⟨hsl, hlo, how⟩ := hq.numbers
      obtain ⟨hsleep, hlook, howe⟩ := worker_numbers hx y
      rw [hsl] at hsleep
      rw [hlo] at hlook
      rw [how] at howe
      exact ⟨.of_eq (Nat.add_right_cancel hsleep) (Nat.add_right_cancel hlook) rfl rfl,
        .of_eq rfl rfl (Nat.add_right_cancel howe) rfl⟩
  | acquire hm hp =>
      obtain ⟨hsleep, hlook, howe⟩ := worker_numbers hx (x.go .check)
      rcases hp with hp | hp <;> rw [hp] at hsleep hlook howe
      · exact ⟨.inr (.enter hsleep hlook rfl rfl), .of_eq rfl rfl howe rfl⟩
      · exact ⟨.of_eq hsleep (Nat.add_right_cancel hlook) rfl rfl, .of_eq rfl rfl howe rfl⟩
  | sleep hp ht =>
      obtain ⟨hsleep, hlook, howe⟩ := worker_numbers hx (x.go .waiting)
      rw [hp] at hsleep hlook howe
      have hnone : s.tasks.length = 0 := by rw [ht]; rfl
      exact ⟨.inr (.sleep hsleep hlook rfl hnone hnone), .of_eq rfl rfl howe rfl⟩
  | @take t rest hp ht =>
      obtain ⟨hsleep, hlook, howe⟩ := worker_numbers hx (x.go (.notify t))
      rw [hp] at hsleep hlook howe
      have hlen : s.tasks.length = rest.length + 1 := by rw [ht]; rfl
      refine ⟨.inr (.take hsleep hlook rfl hlen.symm), .inr (.add rfl rfl howe ?_)⟩
      show 1001 - rest.length = 1001 - s.tasks.length + 1
      omega
  | @notify t choice ps hp hn =>
      obtain ⟨hsleep, hlook, howe⟩ := worker_numbers hx (x.go (.unlock t))
      rw [hp] at hsleep hlook howe
      obtain ⟨-, -, how⟩ := woken_callers (woken_notifyOne hn)
      refine ⟨.of_eq hsleep hlook how rfl, ?_⟩
      rcases notify_callers hn with ⟨hnobody, rfl⟩ | ⟨hone, hmore⟩
      · exact .inr (.notifyNobody hnobody hnobody rfl howe rfl)
      · exact .inr (.notify hone hmore howe rfl)
  | @unlock t hp =>
      obtain ⟨hsleep, hlook, howe⟩ := worker_numbers hx (x.go (.run t))
      rw [hp] at hsleep hlook howe
      exact ⟨.of_eq hsleep hlook rfl rfl, .of_eq rfl rfl howe rfl⟩
  | finish hp =>
      obtain ⟨hsleep, hlook, howe⟩ := worker_numbers hx (x.go .enable)
      rw [hp] at hsleep hlook howe
      exact ⟨.of_eq hsleep hlook rfl rfl, .of_eq rfl rfl howe rfl⟩
  | reacquire hm hp =>
      obtain ⟨hsleep, hlook, howe⟩ := worker_numbers hx (x.go .cleanup)
      rw [hp] at hsleep hlook howe
      exact ⟨.of_eq hsleep hlook rfl rfl, .of_eq rfl rfl howe rfl⟩
  | cleanup hp =>
      obtain ⟨hsleep, hlook, howe⟩ := worker_numbers hx (x.go .ended)
      rw [hp] at hsleep hlook howe
      exact ⟨.of_eq hsleep hlook rfl rfl, .of_eq rfl rfl howe rfl⟩

theorem ProducerMove.ledgers {p : Nat} {s s' : Pool τ} {x : ProducerAt τ} (h : ProducerMove p s x s')
    (hx : s.producers[p]? = some x) (hs : Inv s) :
    Follows s.taskLedger s'.taskLedger ∧ Follows s.roomLedger s'.roomLedger := by
  cases h with
  | @acquire t x hm hp =>
      obtain ⟨hsleep, hlook, howe⟩ := caller_numbers hx (.check t)
      rcases hp with rfl | rfl
      · exact ⟨.of_eq rfl rfl howe rfl, .inr (.enter hsleep hlook rfl rfl)⟩
      · exact ⟨.of_eq rfl rfl howe rfl, .of_eq hsleep (Nat.add_right_cancel hlook) rfl rfl⟩
  | @sleep t hfull =>
      obtain ⟨hsleep, hlook, howe⟩ := caller_numbers hx (.waiting t)
      have hnone : 1001 - s.tasks.length = 0 := by omega
      exact ⟨.of_eq rfl rfl howe rfl, .inr (.sleep hsleep hlook rfl hnone hnone)⟩
  | @room t hroom =>
      obtain ⟨hsleep, hlook, howe⟩ := caller_numbers hx (.push t)
      exact ⟨.of_eq rfl rfl howe rfl, .of_eq hsleep (Nat.add_right_cancel hlook) rfl rfl⟩
  | @push t =>
      obtain ⟨hsleep, hlook, howe⟩ := caller_numbers hx .notify
      have hroom := hs.roomThere p _ hx rfl
      have hlen : (s.tasks ++ [t]).length = s.tasks.length + 1 := by simp
      refine ⟨.inr (.add rfl rfl howe hlen), .inr (.take hsleep hlook rfl ?_)⟩
      show 1001 - (s.tasks ++ [t]).length + 1 = 1001 - s.tasks.length
      omega
  | notify hn =>
      obtain ⟨hsleep, hlook, howe⟩ := caller_numbers hx .unlock
      obtain ⟨-, -, how⟩ := woken_workers (woken_notifyOne hn)
      refine ⟨?_, .of_eq hsleep hlook how rfl⟩
      rcases notify_workers hn with ⟨hnobody, rfl⟩ | ⟨hone, hmore⟩
      · exact .inr (.notifyNobody hnobody hnobody rfl howe rfl)
      · exact .inr (.notify hone hmore howe rfl)
  | unlock =>
      obtain ⟨hsleep, hlook, howe⟩ := caller_numbers hx .outside
      exact ⟨.of_eq rfl rfl howe rfl, .of_eq hsleep hlook rfl rfl⟩

theorem Move.ledgers {s s' : Pool τ} (h : Move s s') (hs : Inv s) :
    Follows s.taskLedger s'.taskLedger ∧ Follows s.roomLedger s'.roomLedger := by
  cases h with
  | worker hx hmove => exact hmove.ledgers hx hs.bounded
  | producer hx hmove => exact hmove.ledgers hx hs
  | @call p t hp =>
      exact ⟨.of_eq rfl rfl (callers_set hp ProducerAt.owing (.lock t)) rfl,
        .of_eq (callers_set hp ProducerAt.sleeping (.lock t)) (callers_set hp ProducerAt.looking (.lock t)) rfl rfl⟩
  | wakeProducers hw =>
      obtain ⟨hle, hsum, how⟩ := woken_callers hw
      exact ⟨.of_eq rfl rfl how rfl, .inr (.wake hle hsum rfl rfl)⟩
  | wakeWorkers hw =>
      obtain ⟨hle, hsum, how⟩ := woken_workers hw
      exact ⟨.inr (.wake hle hsum rfl rfl), .of_eq rfl rfl how rfl⟩
  | @cancelWait w x hx hp hr =>
      obtain ⟨hsleep, hlook, howe⟩ := worker_numbers hx (x.go .cancelled)
      rw [hp] at hsleep hlook howe
      exact ⟨.inr (.leave hsleep hlook rfl rfl), .of_eq rfl rfl howe rfl⟩
  | @cancelRun w x t hx hp hc hr =>
      obtain ⟨hsleep, hlook, howe⟩ := worker_numbers hx (x.go .ended)
      rw [hp] at hsleep hlook howe
      exact ⟨.of_eq hsleep hlook rfl rfl, .of_eq rfl rfl howe rfl⟩
  | spawn =>
      have hspawn : ∀ f : WorkerAt τ → Nat, f .loop = 0 →
          total (fun x => f x.place) (s.threads ++ [Worker.fresh]) = workers f s := by
        intro f hf
        rw [total_append]
        simp [total, Worker.fresh, hf, workers]
      exact ⟨.of_eq (hspawn _ rfl) (hspawn _ rfl) rfl rfl, .of_eq rfl rfl (hspawn _ rfl) rfl⟩
  | flags hts =>
      exact ⟨.of_eq (workers_samePlaces hts _) (workers_samePlaces hts _) rfl rfl,
        .of_eq rfl rfl (workers_samePlaces hts _) rfl⟩

/-! ## Every run -/

/-- A new pool has no threads and no tasks, and nobody is asleep. -/
theorem ledgers_exec {n m : Nat} {as : List (Action τ)} {s : Pool τ}
    (hrun : exec step as (Pool.new n m) = some s) :
    Relation.ReflTransGen Ledger.Step (Pool.new n m : Pool τ).taskLedger s.taskLedger ∧
      Relation.ReflTransGen Ledger.Step (Pool.new n m : Pool τ).roomLedger s.roomLedger :=
  ⟨exec_simulates Inv Pool.taskLedger (fun _ _ _ hs hstep =>
      ⟨(step_move hstep).inv hs, ((step_move hstep).ledgers hs).1⟩) (inv_new n m) hrun,
    exec_simulates Inv Pool.roomLedger (fun _ _ _ hs hstep =>
      ⟨(step_move hstep).inv hs, ((step_move hstep).ledgers hs).2⟩) (inv_new n m) hrun⟩

theorem fair_exec {n m : Nat} {as : List (Action τ)} {s : Pool τ}
    (hrun : exec step as (Pool.new n m) = some s) : s.taskLedger.Fair ∧ s.roomLedger.Fair := by
  obtain ⟨htask, hroom⟩ := ledgers_exec hrun
  refine ⟨Ledger.fair_of_run htask nofun, Ledger.fair_of_run hroom ?_⟩
  intro hpos
  rw [show (Pool.new n m : Pool τ).roomLedger.asleep = 0 from total_eq_zero ?_] at hpos
  · exact absurd hpos (by decide)
  · intro x hx
    rw [List.eq_of_mem_replicate hx]
    rfl

/-- **No lost wakeup.** While a worker sleeps, each task in the deque has a worker of its own that is up
and on its way to it, or a caller that is about to wake one; and while a caller sleeps, the same is so
for each free place. -/
theorem no_lost_wakeup {n m : Nat} {as : List (Action τ)} {s : Pool τ}
    (hrun : exec step as (Pool.new n m) = some s) :
    (∀ (w : Nat) (x : Worker τ), s.threads[w]? = some x → x.place = .waiting →
      s.tasks.length ≤ workers WorkerAt.looking s + callers ProducerAt.owing s) ∧
    ∀ (p : Nat) (t : τ), s.producers[p]? = some (.waiting t) →
      1001 ≤ s.tasks.length + callers ProducerAt.looking s + workers WorkerAt.owing s := by
  obtain ⟨htask, hroom⟩ := fair_exec hrun
  constructor
  · intro w x hx hp
    refine htask ?_
    have hle := le_total (f := fun x : Worker τ => x.place.sleeping) hx
    rw [hp] at hle
    exact hle
  · intro p t hx
    have hle : 1 ≤ callers ProducerAt.sleeping s := le_total (f := ProducerAt.sleeping) hx
    have hunits : 1001 - s.tasks.length ≤ callers ProducerAt.looking s + workers WorkerAt.owing s := hroom hle
    omega

/-- A worker sleeps, and a caller has added a task and not called `notify_one` yet. -/
def addingRun : List (Action Nat) :=
  [.start, .owner, .owner, .worker 0 0, .worker 0 0, .worker 0 0, .call 0 7, .producer 0 0,
    .producer 0 0, .producer 0 0]

theorem no_lost_wakeup_adding :
    ∃ s, exec step addingRun (Pool.new 1 1) = some s ∧ s.tasks = [7] ∧
      s.tasks.length ≤ workers WorkerAt.looking s + callers ProducerAt.owing s := by
  have hrun : exec step addingRun (Pool.new 1 1) = some _ := rfl
  exact ⟨_, hrun, rfl, (no_lost_wakeup hrun).1 0 _ rfl rfl⟩

end Unp.ThreadPool

import Unp.Thread.Moves

/-!
# Safety of the pool

What holds in every state the pool can reach, whatever the scheduler does, with spurious wakeups, while
it is stopped, started again, cancelled and joined.

`Inv` is the invariant. A worker and a caller are inside the mutex only if they own it; from this, what
one of them has seen of the deque (`taskThere`, `roomThere`) is still so when it comes to use it.
Cancellation is off from before a task is taken until it is done (`uncancellable`), and this is what
the account of the tasks rests on.
-/

namespace Unp.ThreadPool

open Unp.Monitor Unp.Schedule

variable {τ : Type}

/-! ## Who is inside the mutex -/

def WorkerAt.inside : WorkerAt τ → Bool
  | .check | .disable | .take | .notify _ | .unlock _ | .cleanup => true
  | _ => false

def ProducerAt.inside : ProducerAt τ → Bool
  | .check _ | .push _ | .notify | .unlock => true
  | _ => false

def inside (ts : List (Worker τ)) (ps : List (ProducerAt τ)) : Tid → Prop
  | .worker w => ∃ x, ts[w]? = some x ∧ x.place.inside = true
  | .producer p => ∃ x, ps[p]? = some x ∧ x.inside = true

section Inside
variable {ts ts' : List (Worker τ)} {ps ps' : List (ProducerAt τ)}

theorem inside_worker {w : Nat} {x : Worker τ} (hx : ts[w]? = some x) :
    inside ts ps (.worker w) ↔ x.place.inside = true := by
  simp [inside, hx]

theorem inside_producer {p : Nat} {x : ProducerAt τ} (hx : ps[p]? = some x) :
    inside ts ps (.producer p) ↔ x.inside = true := by
  simp [inside, hx]

theorem goes_worker {w : Nat} {x : Worker τ} (hx : ts[w]? = some x) (y : Worker τ) :
    Goes (.worker w) (y.place.inside = true) (inside ts ps) (inside (ts.set w y) ps) := by
  intro u
  cases u with
  | worker v =>
      by_cases hv : w = v
      · subst hv
        simp [inside, getElem?_set_of_some hx]
      · simp [inside, getElem?_set_of_some hx, hv, Ne.symm hv]
  | producer p => simp [inside]

theorem goes_producer {p : Nat} {x : ProducerAt τ} (hx : ps[p]? = some x) (y : ProducerAt τ) :
    Goes (.producer p) (y.inside = true) (inside ts ps) (inside ts (ps.set p y)) := by
  intro u
  cases u with
  | worker v => simp [inside]
  | producer q =>
      by_cases hq : p = q
      · subst hq
        simp [inside, getElem?_set_of_some hx]
      · simp [inside, getElem?_set_of_some hx, hq, Ne.symm hq]

theorem Worker.asleep_iff {x : Worker τ} : x.asleep = true ↔ x.place = .waiting := by
  unfold Worker.asleep WorkerAt.asleep
  split
  · next h => simp [h]
  · next h => simpa using h

theorem ProducerAt.asleep_iff {x : ProducerAt τ} : x.asleep = true ↔ ∃ t, x = .waiting t := by
  cases x <;> simp [ProducerAt.asleep]

/-- Waking does not let anybody in. -/
theorem inside_woken_workers (h : Woken Worker.asleep Worker.wake ts ts') (u : Tid) :
    inside ts' ps u ↔ inside ts ps u := by
  cases u with
  | producer p => exact Iff.rfl
  | worker w =>
      constructor
      · rintro ⟨y, hy, hin⟩
        obtain ⟨x, hx, rfl | ⟨-, rfl⟩⟩ := h.2 w y hy
        · exact ⟨y, hx, hin⟩
        · simp [Worker.wake, Worker.go, WorkerAt.inside] at hin
      · rintro ⟨x, hx, hin⟩
        obtain ⟨y, hy, rfl | ⟨hs, -⟩⟩ := h.back hx
        · exact ⟨y, hy, hin⟩
        · rw [Worker.asleep_iff.mp hs] at hin
          simp [WorkerAt.inside] at hin

theorem inside_woken_producers (h : Woken ProducerAt.asleep ProducerAt.wake ps ps') (u : Tid) :
    inside ts ps' u ↔ inside ts ps u := by
  cases u with
  | worker w => exact Iff.rfl
  | producer p =>
      constructor
      · rintro ⟨y, hy, hin⟩
        obtain ⟨x, hx, rfl | ⟨hs, rfl⟩⟩ := h.2 p y hy
        · exact ⟨y, hx, hin⟩
        · obtain ⟨t, rfl⟩ := ProducerAt.asleep_iff.mp hs
          simp [ProducerAt.wake, ProducerAt.inside] at hin
      · rintro ⟨x, hx, hin⟩
        obtain ⟨y, hy, rfl | ⟨hs, -⟩⟩ := h.back hx
        · exact ⟨y, hy, hin⟩
        · obtain ⟨t, rfl⟩ := ProducerAt.asleep_iff.mp hs
          simp [ProducerAt.inside] at hin

theorem SamePlaces.back (h : SamePlaces ts ts') {w : Nat} {x : Worker τ} (hx : ts[w]? = some x) :
    ∃ y, ts'[w]? = some y ∧ y.place = x.place := by
  obtain ⟨hlt, -⟩ := List.getElem?_eq_some_iff.mp hx
  have hy := List.getElem?_eq_getElem (l := ts') (h.length_eq.symm ▸ hlt)
  obtain ⟨x', hx', hp, -⟩ := h.same w _ hy
  cases hx.symm.trans hx'
  exact ⟨_, hy, hp⟩

theorem inside_samePlaces (h : SamePlaces ts ts') (u : Tid) :
    inside ts' ps u ↔ inside ts ps u := by
  cases u with
  | producer p => exact Iff.rfl
  | worker w =>
      constructor
      · rintro ⟨y, hy, hin⟩
        obtain ⟨x, hx, hp, -⟩ := h.same w y hy
        exact ⟨x, hx, hp ▸ hin⟩
      · rintro ⟨x, hx, hin⟩
        obtain ⟨y, hy, hp⟩ := h.back hx
        exact ⟨y, hy, hp ▸ hin⟩

/-- What is found in a list with one more thread. -/
theorem getElem?_append_fresh {w : Nat} {y : Worker τ} (h : (ts ++ [Worker.fresh])[w]? = some y) :
    ts[w]? = some y ∨ w = ts.length ∧ y = Worker.fresh := by
  rw [List.getElem?_append] at h
  split at h
  · exact Or.inl h
  · next hlt =>
      obtain ⟨hw, rfl⟩ := List.getElem?_eq_some_iff.mp h
      rw [List.length_singleton] at hw
      refine Or.inr ⟨by omega, ?_⟩
      simp

theorem getElem?_append_of_some {α : Type} {l l' : List α} {i : Nat} {x : α} (h : l[i]? = some x) :
    (l ++ l')[i]? = some x := by
  obtain ⟨hlt, -⟩ := List.getElem?_eq_some_iff.mp h
  rwa [List.getElem?_append_left hlt]

theorem inside_append_fresh (u : Tid) :
    inside (ts ++ [Worker.fresh]) ps u ↔ inside ts ps u := by
  cases u with
  | producer p => exact Iff.rfl
  | worker w =>
      constructor
      · rintro ⟨y, hy, hin⟩
        rcases getElem?_append_fresh hy with hy | ⟨-, rfl⟩
        · exact ⟨y, hy, hin⟩
        · simp [Worker.fresh, WorkerAt.inside] at hin
      · rintro ⟨x, hx, hin⟩
        exact ⟨x, getElem?_append_of_some hx, hin⟩

end Inside

def Pool.Exclusive (s : Pool τ) : Prop := Monitor.Exclusive s.mutex (inside s.threads s.producers)

theorem Quiet.inside_eq {s : Pool τ} {x y : Worker τ} (h : Quiet s x y) :
    y.place.inside = x.place.inside := by
  cases h <;> simp_all [Worker.go, WorkerAt.inside]

theorem WorkerMove.exclusive {w : Nat} {s s' : Pool τ} {x : Worker τ} (h : WorkerMove w s x s')
    (hx : s.threads[w]? = some x) (hs : s.Exclusive) : s'.Exclusive := by
  have hin : x.place.inside = true → inside s.threads s.producers (.worker w) := (inside_worker hx).mpr
  cases h with
  | quiet hq =>
      refine hs.stay (goes_worker hx _) ?_
      rw [hq.inside_eq, inside_worker hx]
  | acquire hm hp =>
      unfold Pool.Exclusive at hs
      rw [hm] at hs
      exact hs.enter (goes_worker hx _) rfl
  | sleep hp ht => exact hs.leave (goes_worker hx _) (hin (by rw [hp]; rfl)) (by simp [Worker.go, WorkerAt.inside])
  | take hp ht =>
      refine hs.stay (goes_worker hx _) ?_
      rw [inside_worker hx, hp]
      rfl
  | notify hp hn =>
      have hs' : Monitor.Exclusive s.mutex (inside s.threads _) :=
        hs.keep (inside_woken_producers (woken_notifyOne hn))
      refine hs'.stay (goes_worker hx _) ?_
      rw [inside_worker hx, hp]
      rfl
  | unlock hp => exact hs.leave (goes_worker hx _) (hin (by rw [hp]; rfl)) (by simp [Worker.go, WorkerAt.inside])
  | finish hp =>
      refine hs.stay (goes_worker hx _) ?_
      rw [inside_worker hx, hp]
      rfl
  | reacquire hm hp =>
      unfold Pool.Exclusive at hs
      rw [hm] at hs
      exact hs.enter (goes_worker hx _) rfl
  | cleanup hp => exact hs.leave (goes_worker hx _) (hin (by rw [hp]; rfl)) (by simp [Worker.go, WorkerAt.inside])

theorem ProducerMove.exclusive {p : Nat} {s s' : Pool τ} {x : ProducerAt τ}
    (h : ProducerMove p s x s') (hx : s.producers[p]? = some x) (hs : s.Exclusive) :
    s'.Exclusive := by
  have hin : x.inside = true → inside s.threads s.producers (.producer p) := (inside_producer hx).mpr
  cases h with
  | acquire hm hp =>
      unfold Pool.Exclusive at hs
      rw [hm] at hs
      exact hs.enter (goes_producer hx _) rfl
  | sleep hfull => exact hs.leave (goes_producer hx _) (hin rfl) (by simp [ProducerAt.inside])
  | room hroom =>
      refine hs.stay (goes_producer hx _) ?_
      rw [inside_producer hx]
      rfl
  | push =>
      refine hs.stay (goes_producer hx _) ?_
      rw [inside_producer hx]
      rfl
  | notify hn =>
      have hs' : Monitor.Exclusive s.mutex (inside _ s.producers) :=
        hs.keep (inside_woken_workers (woken_notifyOne hn))
      refine hs'.stay (goes_producer hx _) ?_
      rw [inside_producer hx]
      rfl
  | unlock => exact hs.leave (goes_producer hx _) (hin rfl) (by simp [ProducerAt.inside])

theorem Move.exclusive {s s' : Pool τ} (h : Move s s') (hs : s.Exclusive) : s'.Exclusive := by
  cases h with
  | worker hx hmove => exact hmove.exclusive hx hs
  | producer hx hmove => exact hmove.exclusive hx hs
  | call hp =>
      refine hs.stay (goes_producer hp _) ?_
      rw [inside_producer hp]
      rfl
  | wakeProducers hw => exact hs.keep (inside_woken_producers hw)
  | wakeWorkers hw => exact hs.keep (inside_woken_workers hw)
  | cancelWait hx hp hr =>
      refine hs.stay (goes_worker hx _) ?_
      rw [inside_worker hx, hp]
      rfl
  | cancelRun hx hp hc hr =>
      refine hs.stay (goes_worker hx _) ?_
      rw [inside_worker hx, hp]
      rfl
  | spawn => exact hs.keep inside_append_fresh
  | flags hts => exact hs.keep (inside_samePlaces hts)

/-! ## What a thread has seen of the deque, and cancellation -/

/-- The worker has seen a task and not taken it yet. -/
def WorkerAt.needsTask : WorkerAt τ → Bool
  | .disable | .take => true
  | _ => false

def ProducerAt.needsRoom : ProducerAt τ → Bool
  | .push _ => true
  | _ => false

def WorkerAt.cancelOff : WorkerAt τ → Bool
  | .take | .notify _ | .unlock _ | .run _ | .enable => true
  | _ => false

structure Inv (s : Pool τ) : Prop where
  exclusive : s.Exclusive
  taskThere : AllAt (fun _ x => x.place.needsTask = true → s.tasks ≠ []) s.threads
  roomThere : AllAt (fun _ x => x.needsRoom = true → s.tasks.length ≤ 1000) s.producers
  bounded : s.tasks.length ≤ 1001
  uncancellable : AllAt (fun _ x => x.place.cancelOff = true → x.cancellable = false) s.threads

theorem WorkerAt.inside_of_needsTask {x : WorkerAt τ} (h : x.needsTask = true) : x.inside = true := by
  cases x <;> simp_all [WorkerAt.needsTask, WorkerAt.inside]

theorem ProducerAt.inside_of_needsRoom {x : ProducerAt τ} (h : x.needsRoom = true) :
    x.inside = true := by
  cases x <;> simp_all [ProducerAt.needsRoom, ProducerAt.inside]

theorem Quiet.needsTask {s : Pool τ} {x y : Worker τ} (h : Quiet s x y)
    (hx : x.place.needsTask = true → s.tasks ≠ []) (hy : y.place.needsTask = true) : s.tasks ≠ [] := by
  cases h with
  | found hp ht => exact ht
  | disable hp => exact hx (by rw [hp]; rfl)
  | enter | leave | enable | again | cancelled => simp [Worker.go, WorkerAt.needsTask] at hy

theorem Quiet.cancellable {s : Pool τ} {x y : Worker τ} (h : Quiet s x y)
    (hy : y.place.cancelOff = true) : y.cancellable = false := by
  cases h with
  | disable hp => rfl
  | enter | leave | found | enable | again | cancelled => simp [Worker.go, WorkerAt.cancelOff] at hy

/-- The others have not seen the task that a worker takes: they are outside. -/
theorem Inv.others {s : Pool τ} (hs : Inv s) {w : Nat} {x : Worker τ} (hx : s.threads[w]? = some x)
    (hin : x.place.inside = true) {v : Nat} {y : Worker τ} (hv : v ≠ w)
    (hy : s.threads[v]? = some y) : y.place.needsTask = false := by
  by_contra hneeds
  have hyin := WorkerAt.inside_of_needsTask (by simpa using hneeds)
  have heq := hs.exclusive.eq ((inside_worker hy).mpr hyin) ((inside_worker hx).mpr hin)
  cases heq
  exact hv rfl

theorem Inv.otherProducers {s : Pool τ} (hs : Inv s) {p : Nat} {x : ProducerAt τ}
    (hx : s.producers[p]? = some x) (hin : x.inside = true) {q : Nat} {y : ProducerAt τ} (hq : q ≠ p)
    (hy : s.producers[q]? = some y) : y.needsRoom = false := by
  by_contra hneeds
  have hyin := ProducerAt.inside_of_needsRoom (by simpa using hneeds)
  have heq := hs.exclusive.eq ((inside_producer hy).mpr hyin) ((inside_producer hx).mpr hin)
  cases heq
  exact hq rfl

/-- A worker that goes to a place where it has seen nothing and may be cancelled. -/
theorem Inv.go {s : Pool τ} (hs : Inv s) {w : Nat} {x : Worker τ} {place : WorkerAt τ}
    {m : Option Tid} (hexcl : Monitor.Exclusive m (inside (s.threads.set w (x.go place)) s.producers))
    (hneeds : place.needsTask = false) (hoff : place.cancelOff = false) :
    Inv ({ s with mutex := m }.setWorker w (x.go place)) where
  exclusive := hexcl
  taskThere := hs.taskThere.set (by simp [Worker.go, hneeds])
  roomThere := hs.roomThere
  bounded := hs.bounded
  uncancellable := hs.uncancellable.set (by simp [Worker.go, hoff])

theorem WorkerMove.inv {w : Nat} {s s' : Pool τ} {x : Worker τ} (h : WorkerMove w s x s')
    (hx : s.threads[w]? = some x) (hs : Inv s) : Inv s' := by
  have hexcl := h.exclusive hx hs.exclusive
  cases h with
  | quiet hq =>
      exact ⟨hexcl, hs.taskThere.set (hq.needsTask (hs.taskThere w x hx)), hs.roomThere, hs.bounded,
        hs.uncancellable.set hq.cancellable⟩
  | acquire hm hp => exact hs.go hexcl rfl rfl
  | sleep hp ht => exact hs.go hexcl rfl rfl
  | take hp ht =>
      have hoff : x.cancellable = false := hs.uncancellable w x hx (by rw [hp]; rfl)
      have hlen := hs.bounded
      rw [ht, List.length_cons] at hlen
      refine ⟨hexcl, allAt_set ?_ (by simp [Worker.go, WorkerAt.needsTask]), ?_, ?_,
        hs.uncancellable.set fun _ => hoff⟩
      · intro v y hv hy hneeds
        rw [hs.others hx (by rw [hp]; rfl) hv hy] at hneeds
        cases hneeds
      · intro p y hy hneeds
        have hroom := hs.roomThere p y hy hneeds
        rw [ht, List.length_cons] at hroom
        exact Nat.le_of_succ_le hroom
      · exact Nat.le_of_succ_le hlen
  | notify hp hn =>
      have hoff : x.cancellable = false := hs.uncancellable w x hx (by rw [hp]; rfl)
      refine ⟨hexcl, hs.taskThere.set (by simp [Worker.go, WorkerAt.needsTask]), ?_, hs.bounded,
        hs.uncancellable.set fun _ => hoff⟩
      refine (woken_notifyOne hn).allAt hs.roomThere ?_
      intro p y hy hroom hneeds
      obtain ⟨t, rfl⟩ := ProducerAt.asleep_iff.mp hy
      cases hneeds
  | unlock hp =>
      have hoff : x.cancellable = false := hs.uncancellable w x hx (by rw [hp]; rfl)
      exact ⟨hexcl, hs.taskThere.set (by simp [Worker.go, WorkerAt.needsTask]), hs.roomThere,
        hs.bounded, hs.uncancellable.set fun _ => hoff⟩
  | finish hp =>
      have hoff : x.cancellable = false := hs.uncancellable w x hx (by rw [hp]; rfl)
      exact ⟨hexcl, hs.taskThere.set (by simp [Worker.go, WorkerAt.needsTask]), hs.roomThere,
        hs.bounded, hs.uncancellable.set fun _ => hoff⟩
  | reacquire hm hp => exact hs.go hexcl rfl rfl
  | cleanup hp => exact hs.go hexcl rfl rfl

theorem ProducerMove.inv {p : Nat} {s s' : Pool τ} {x : ProducerAt τ} (h : ProducerMove p s x s')
    (hx : s.producers[p]? = some x) (hs : Inv s) : Inv s' := by
  have hexcl := h.exclusive hx hs.exclusive
  have hgo : ∀ y : ProducerAt τ, y.needsRoom = false →
      AllAt (fun _ x => x.needsRoom = true → s.tasks.length ≤ 1000) (s.producers.set p y) :=
    fun y hy => hs.roomThere.set fun hneeds => absurd (hy.symm.trans hneeds) (by decide)
  cases h with
  | acquire hm hp => exact ⟨hexcl, hs.taskThere, hgo _ rfl, hs.bounded, hs.uncancellable⟩
  | sleep hfull => exact ⟨hexcl, hs.taskThere, hgo _ rfl, hs.bounded, hs.uncancellable⟩
  | room hroom =>
      exact ⟨hexcl, hs.taskThere, hs.roomThere.set fun _ => hroom, hs.bounded, hs.uncancellable⟩
  | push =>
      have hroom := hs.roomThere p _ hx rfl
      refine ⟨hexcl, fun w y hy hneeds => by simp [Pool.setProducer], allAt_set ?_ nofun, ?_,
        hs.uncancellable⟩
      · intro q y hq hy hneeds
        rw [hs.otherProducers hx rfl hq hy] at hneeds
        cases hneeds
      · show (s.tasks ++ [_]).length ≤ 1001
        rw [List.length_append]
        exact Nat.succ_le_succ hroom
  | notify hn =>
      have hw := woken_notifyOne hn
      refine ⟨hexcl, hw.allAt hs.taskThere ?_, hgo _ rfl, hs.bounded, hw.allAt hs.uncancellable ?_⟩
      · intro w y hy hneeds hn
        cases hn
      · intro w y hy hoff hn
        cases hn
  | unlock => exact ⟨hexcl, hs.taskThere, hgo _ rfl, hs.bounded, hs.uncancellable⟩

theorem Move.inv {s s' : Pool τ} (h : Move s s') (hs : Inv s) : Inv s' := by
  have hexcl := h.exclusive hs.exclusive
  cases h with
  | worker hx hmove => exact hmove.inv hx hs
  | producer hx hmove => exact hmove.inv hx hs
  | call hp => exact ⟨hexcl, hs.taskThere, hs.roomThere.set nofun, hs.bounded, hs.uncancellable⟩
  | wakeProducers hw =>
      refine ⟨hexcl, hs.taskThere, hw.allAt hs.roomThere ?_, hs.bounded, hs.uncancellable⟩
      intro p y hy hroom hneeds
      obtain ⟨t, rfl⟩ := ProducerAt.asleep_iff.mp hy
      cases hneeds
  | wakeWorkers hw =>
      refine ⟨hexcl, hw.allAt hs.taskThere ?_, hs.roomThere, hs.bounded,
        hw.allAt hs.uncancellable ?_⟩
      · intro w y hy hneeds hn
        cases hn
      · intro w y hy hoff hn
        cases hn
  | cancelWait hx hp hr => exact hs.go hexcl rfl rfl
  | cancelRun hx hp hc hr => exact hs.go hexcl rfl rfl
  | spawn =>
      refine ⟨hexcl, ?_, hs.roomThere, hs.bounded, ?_⟩
      · intro w y hy
        rcases getElem?_append_fresh hy with hy | ⟨-, rfl⟩
        · exact hs.taskThere w y hy
        · exact nofun
      · intro w y hy
        rcases getElem?_append_fresh hy with hy | ⟨-, rfl⟩
        · exact hs.uncancellable w y hy
        · exact nofun
  | flags hts =>
      refine ⟨hexcl, ?_, hs.roomThere, hs.bounded, ?_⟩
      · intro w y hy
        obtain ⟨x, hx, hp, -⟩ := hts.same w y hy
        rw [hp]
        exact hs.taskThere w x hx
      · intro w y hy
        obtain ⟨x, hx, hp, hc⟩ := hts.same w y hy
        rw [hp, hc]
        exact hs.uncancellable w x hx

theorem inv_new (n m : Nat) : Inv (Pool.new n m : Pool τ) where
  exclusive := by
    intro u
    cases u with
    | worker w => simp [inside, Pool.new]
    | producer p => simp [inside, Pool.new, List.getElem?_replicate, ProducerAt.inside]
  taskThere := by simp [AllAt, Pool.new]
  roomThere := by simp [AllAt, Pool.new, List.getElem?_replicate, ProducerAt.needsRoom]
  bounded := by simp [Pool.new]
  uncancellable := by simp [AllAt, Pool.new]

theorem inv_exec {n m : Nat} {as : List (Action τ)} {s : Pool τ}
    (hrun : exec step as (Pool.new n m) = some s) : Inv s :=
  exec_keeps Inv (fun _ _ _ hs hstep => (step_move hstep).inv hs) (inv_new n m) hrun

/-- Nobody else is in the critical section, the deque never grows past 1001 tasks, and `front` is never
called on an empty one. -/
theorem pool_safe {n m : Nat} {as : List (Action τ)} {s : Pool τ}
    (hrun : exec step as (Pool.new n m) = some s) :
    (∀ t u, inside s.threads s.producers t → inside s.threads s.producers u → t = u) ∧
      s.tasks.length ≤ 1001 ∧
      ∀ (w : Nat) (x : Worker τ), s.threads[w]? = some x → x.place = .take → s.tasks ≠ [] := by
  have hs := inv_exec hrun
  refine ⟨fun t u => hs.exclusive.eq, hs.bounded, ?_⟩
  intro w x hx hp
  exact hs.taskThere w x hx (by rw [hp]; rfl)

/-- One worker comes to the deque with a task in it. -/
def takingRun : List (Action Nat) :=
  [.start, .owner, .owner, .call 0 7, .producer 0 0, .producer 0 0, .producer 0 0, .producer 0 0,
    .producer 0 0, .worker 0 0, .worker 0 0, .worker 0 0, .worker 0 0]

theorem pool_safe_taking :
    ∃ s, exec step takingRun (Pool.new 1 1) = some s ∧ s.tasks.length ≤ 1001 ∧
      ∃ x, s.threads[0]? = some x ∧ x.place = .take ∧ s.tasks ≠ [] := by
  have hrun : exec step takingRun (Pool.new 1 1) = some _ := rfl
  exact ⟨_, hrun, (pool_safe hrun).2.1, _, rfl, rfl, (pool_safe hrun).2.2 0 _ rfl rfl⟩

end Unp.ThreadPool

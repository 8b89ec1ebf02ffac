import Unp.Thread.Pool
import Unp.Lib.Schedule

/-!
# What a step of the pool does

`Move` says once what a step can do, guards included: `step_move`. The lines of `default_routine` that
only lead to another line, without a look at what other threads write but `_running`, are `Quiet`.
Invariants of the pool are read off from `Move` and do not unfold the step functions.
-/

namespace Unp.ThreadPool

open Unp.Monitor

variable {τ : Type}

/-- A line of `default_routine` that changes the worker alone. -/
inductive Quiet (s : Pool τ) (x : Worker τ) : Worker τ → Prop
  | enter : x.place = .loop → s.running = true → Quiet s x (x.go .lock)
  | leave : x.place = .loop → s.running = false → Quiet s x (x.go .ended)
  | found : x.place = .check → s.tasks ≠ [] → Quiet s x (x.go .disable)
  | disable : x.place = .disable → Quiet s x { x.go .take with cancellable := false }
  | enable : x.place = .enable → Quiet s x { x.go .testcancel with cancellable := true }
  | again : x.place = .testcancel → Quiet s x (x.go .loop)
  | cancelled : x.place = .testcancel → x.cancelRequested = true → Quiet s x (x.go .ended)

inductive WorkerMove (w : Nat) (s : Pool τ) (x : Worker τ) : Pool τ → Prop
  | quiet {y : Worker τ} : Quiet s x y → WorkerMove w s x (s.setWorker w y)
  | acquire : s.mutex = none → x.place = .lock ∨ x.place = .notified →
      WorkerMove w s x ({ s with mutex := some (.worker w) }.setWorker w (x.go .check))
  | sleep : x.place = .check → s.tasks = [] →
      WorkerMove w s x (s.unlock.setWorker w (x.go .waiting))
  | take {t : τ} {rest : List τ} : x.place = .take → s.tasks = t :: rest →
      WorkerMove w s x ({ s with tasks := rest, taken := s.taken ++ [(w, t)] }.setWorker w
        (x.go (.notify t)))
  | notify {t : τ} {choice : Nat} {ps : List (ProducerAt τ)} : x.place = .notify t →
      notifyOne ProducerAt.asleep ProducerAt.wake choice s.producers = some ps →
      WorkerMove w s x ({ s with producers := ps }.setWorker w (x.go (.unlock t)))
  | unlock {t : τ} : x.place = .unlock t → WorkerMove w s x (s.unlock.setWorker w (x.go (.run t)))
  | finish {t : τ} : x.place = .run t →
      WorkerMove w s x ({ s with finished := s.finished ++ [(w, t)] }.setWorker w (x.go .enable))
  | reacquire : s.mutex = none → x.place = .cancelled →
      WorkerMove w s x ({ s with mutex := some (.worker w) }.setWorker w (x.go .cleanup))
  | cleanup : x.place = .cleanup → WorkerMove w s x (s.unlock.setWorker w (x.go .ended))

inductive ProducerMove (p : Nat) (s : Pool τ) : ProducerAt τ → Pool τ → Prop
  | acquire {t : τ} {x : ProducerAt τ} : s.mutex = none → x = .lock t ∨ x = .notified t →
      ProducerMove p s x ({ s with mutex := some (.producer p) }.setProducer p (.check t))
  | sleep {t : τ} : 1000 < s.tasks.length →
      ProducerMove p s (.check t) (s.unlock.setProducer p (.waiting t))
  | room {t : τ} : s.tasks.length ≤ 1000 →
      ProducerMove p s (.check t) (s.setProducer p (.push t))
  | push {t : τ} : ProducerMove p s (.push t)
      ({ s with tasks := s.tasks ++ [t], added := s.added ++ [t] }.setProducer p .notify)
  | notify {choice : Nat} {ts : List (Worker τ)} :
      notifyOne Worker.asleep Worker.wake choice s.threads = some ts →
      ProducerMove p s .notify ({ s with threads := ts }.setProducer p .unlock)
  | unlock : ProducerMove p s .unlock (s.unlock.setProducer p .outside)

/-- A step of the owner that leaves every thread where it is: the flags of a worker may change, apart
from `cancellable`. -/
structure SamePlaces (before after : List (Worker τ)) : Prop where
  length_eq : after.length = before.length
  same : ∀ (w : Nat) (y : Worker τ), after[w]? = some y → ∃ x, before[w]? = some x ∧
    y.place = x.place ∧ y.cancellable = x.cancellable

inductive Move (s : Pool τ) : Pool τ → Prop
  | worker {w : Nat} {x : Worker τ} {s' : Pool τ} : s.threads[w]? = some x → WorkerMove w s x s' →
      Move s s'
  | producer {p : Nat} {x : ProducerAt τ} {s' : Pool τ} : s.producers[p]? = some x →
      ProducerMove p s x s' → Move s s'
  | call {p : Nat} {t : τ} : s.producers[p]? = some .outside → Move s (s.setProducer p (.lock t))
  | wakeProducers {ps : List (ProducerAt τ)} {o : OwnerAt} :
      Woken ProducerAt.asleep ProducerAt.wake s.producers ps →
      Move s { s with producers := ps, owner := o }
  | wakeWorkers {ts : List (Worker τ)} {o : OwnerAt} :
      Woken Worker.asleep Worker.wake s.threads ts → Move s { s with threads := ts, owner := o }
  | cancelWait {w : Nat} {x : Worker τ} : s.threads[w]? = some x → x.place = .waiting →
      x.cancelRequested = true → Move s (s.setWorker w (x.go .cancelled))
  | cancelRun {w : Nat} {x : Worker τ} {t : τ} : s.threads[w]? = some x → x.place = .run t →
      x.cancellable = true → x.cancelRequested = true → Move s (s.setWorker w (x.go .ended))
  | spawn {o : OwnerAt} : Move s { s with threads := s.threads ++ [Worker.fresh], owner := o }
  | flags {n : Nat} {running : Bool} {ts : List (Worker τ)} {o : OwnerAt} :
      SamePlaces s.threads ts →
      Move s { s with nOfThreads := n, running := running, threads := ts, owner := o }

/-! ## Every step is a move -/

theorem lock_eq_some {s s' : Pool τ} {t : Tid} (h : s.lock t = some s') :
    s.mutex = none ∧ s' = { s with mutex := some t } := by
  unfold Pool.lock at h
  split at h
  · next hnone => exact ⟨hnone, (Option.some.inj h).symm⟩
  · cases h

theorem hasTask_eq_true {s : Pool τ} : s.hasTask = true ↔ s.tasks ≠ [] := by
  simp [Pool.hasTask]

theorem SamePlaces.refl (l : List (Worker τ)) : SamePlaces l l :=
  ⟨rfl, fun _ y hy => ⟨y, hy, rfl, rfl⟩⟩

theorem samePlaces_set {l : List (Worker τ)} {i : Nat} {x y : Worker τ} (hx : l[i]? = some x)
    (hplace : y.place = x.place) (hc : y.cancellable = x.cancellable) : SamePlaces l (l.set i y) := by
  refine ⟨List.length_set .., ?_⟩
  intro w z hz
  rw [List.getElem?_set] at hz
  split at hz
  · next hw =>
      subst hw
      split at hz
      · cases hz
        exact ⟨x, hx, hplace, hc⟩
      · cases hz
  · exact ⟨z, hz, rfl, rfl⟩

theorem samePlaces_map {l : List (Worker τ)} {f : Worker τ → Worker τ}
    (hplace : ∀ x, (f x).place = x.place) (hc : ∀ x, (f x).cancellable = x.cancellable) :
    SamePlaces l (l.map f) := by
  refine ⟨List.length_map .., ?_⟩
  intro w z hz
  rw [List.getElem?_map, Option.map_eq_some_iff] at hz
  obtain ⟨x, hx, rfl⟩ := hz
  exact ⟨x, hx, hplace x, hc x⟩

theorem defaultRoutine_move {w choice : Nat} {s s' : Pool τ}
    (h : defaultRoutine w choice s = some s') :
    ∃ x, s.threads[w]? = some x ∧ WorkerMove w s x s' := by
  unfold defaultRoutine at h
  split at h
  · cases h
  · next x hx =>
      refine ⟨x, hx, ?_⟩
      split at h
      · next hp =>
          cases h
          cases hr : s.running with
          | true => exact .quiet (.enter hp hr)
          | false => exact .quiet (.leave hp hr)
      · next hp =>
          obtain ⟨s₁, hlock, rfl⟩ := Option.map_eq_some_iff.mp h
          obtain ⟨hm, rfl⟩ := lock_eq_some hlock
          exact .acquire hm (.inl hp)
      · next hp =>
          split at h <;> cases h
          · next ht => exact .quiet (.found hp (hasTask_eq_true.mp ht))
          · next ht => exact .sleep hp (by simpa [hasTask_eq_true] using ht)
      · cases h
      · next hp =>
          obtain ⟨s₁, hlock, rfl⟩ := Option.map_eq_some_iff.mp h
          obtain ⟨hm, rfl⟩ := lock_eq_some hlock
          exact .acquire hm (.inr hp)
      · next hp =>
          obtain ⟨s₁, hlock, rfl⟩ := Option.map_eq_some_iff.mp h
          obtain ⟨hm, rfl⟩ := lock_eq_some hlock
          exact .reacquire hm hp
      · next hp =>
          cases h
          exact .cleanup hp
      · next hp =>
          cases h
          exact .quiet (.disable hp)
      · next hp =>
          split at h
          · cases h
          · next ht =>
              cases h
              exact .take hp ht
      · next hp =>
          obtain ⟨ps, hn, rfl⟩ := Option.map_eq_some_iff.mp h
          exact .notify hp hn
      · next hp =>
          cases h
          exact .unlock hp
      · next hp =>
          cases h
          exact .finish hp
      · next hp =>
          cases h
          exact .quiet (.enable hp)
      · next hp =>
          cases h
          split
          · next hc => exact .quiet (.cancelled hp (by simp_all))
          · exact .quiet (.again hp)
      · cases h

theorem addTask_move {p choice : Nat} {s s' : Pool τ} (h : addTask p choice s = some s') :
    ∃ x, s.producers[p]? = some x ∧ ProducerMove p s x s' := by
  unfold addTask at h
  split at h
  · cases h
  · next x hx =>
      refine ⟨x, hx, ?_⟩
      split at h
      · cases h
      · obtain ⟨s₁, hlock, rfl⟩ := Option.map_eq_some_iff.mp h
        obtain ⟨hm, rfl⟩ := lock_eq_some hlock
        exact .acquire hm (.inl rfl)
      · split at h <;> cases h
        · next hfull => exact .sleep (by simpa [Pool.dequeFull] using hfull)
        · next hroom => exact .room (by simpa [Pool.dequeFull] using hroom)
      · cases h
      · obtain ⟨s₁, hlock, rfl⟩ := Option.map_eq_some_iff.mp h
        obtain ⟨hm, rfl⟩ := lock_eq_some hlock
        exact .acquire hm (.inr rfl)
      · cases h
        exact .push
      · obtain ⟨ts, hn, rfl⟩ := Option.map_eq_some_iff.mp h
        exact .notify hn
      · cases h
        exact .unlock

theorem cancellationPoint_move {w : Nat} {s s' : Pool τ} (h : cancellationPoint w s = some s') :
    Move s s' := by
  unfold cancellationPoint at h
  split at h
  · cases h
  · next x hx =>
      split at h
      · next hc =>
          obtain ⟨hcan, hreq⟩ : x.cancellable = true ∧ x.cancelRequested = true := by simpa using hc
          split at h
          · next hp =>
              cases h
              exact .cancelWait hx hp hreq
          · next hp =>
              cases h
              exact .cancelRun hx hp hcan hreq
          · cases h
      · cases h

theorem ownerStep_move {s s' : Pool τ} (h : ownerStep s = some s') : Move s s' := by
  unfold ownerStep at h
  split at h
  · cases h
  · cases h
    exact .flags (.refl _)
  · cases h
    exact .spawn
  · cases h
    exact .wakeWorkers (woken_notifyAll _)
  · cases h
    exact .wakeProducers (woken_notifyAll _)
  · cases h
    exact .flags (samePlaces_map (fun _ => rfl) (fun _ => rfl))
  · split at h
    · cases h
      exact .flags (.refl _)
    · next x hx =>
        cases h
        exact .flags (samePlaces_set hx rfl rfl)
  · split at h
    · cases h
      exact .flags (.refl _)
    · next x hx =>
        split at h
        · split at h
          · cases h
            exact .flags (samePlaces_set hx rfl rfl)
          · cases h
        · cases h
          exact .flags (.refl _)

theorem whenIdle_eq_some {s s' s'' : Pool τ} (h : s.whenIdle s' = some s'') :
    s.owner = .idle ∧ s'' = s' := by
  unfold Pool.whenIdle at h
  split at h
  · next hidle => exact ⟨hidle, (Option.some.inj h).symm⟩
  · cases h

theorem step_move {a : Action τ} {s s' : Pool τ} (h : step a s = some s') : Move s s' := by
  cases a with
  | call p t =>
      simp only [step] at h
      split at h
      · next hp =>
          cases h
          exact .call hp
      · cases h
  | producer p choice =>
      obtain ⟨x, hx, hmove⟩ := addTask_move h
      exact .producer hx hmove
  | worker w choice =>
      obtain ⟨x, hx, hmove⟩ := defaultRoutine_move h
      exact .worker hx hmove
  | wakeProducer p =>
      simp only [step] at h
      split at h
      · next x hx =>
          split at h
          · next hs =>
              cases h
              exact .wakeProducers (woken_set hx hs)
          · cases h
      · cases h
  | wakeWorker w =>
      simp only [step] at h
      split at h
      · next x hx =>
          split at h
          · next hs =>
              cases h
              exact .wakeWorkers (woken_set hx hs)
          · cases h
      · cases h
  | cancellationPoint w => exact cancellationPoint_move h
  | setNumOfThreads n =>
      obtain ⟨-, rfl⟩ := whenIdle_eq_some h
      exact .flags (.refl _)
  | start =>
      obtain ⟨-, rfl⟩ := whenIdle_eq_some h
      exact .flags (.refl _)
  | stop =>
      obtain ⟨-, rfl⟩ := whenIdle_eq_some h
      exact .flags (.refl _)
  | cancel =>
      obtain ⟨-, rfl⟩ := whenIdle_eq_some h
      exact .flags (.refl _)
  | wait =>
      obtain ⟨-, rfl⟩ := whenIdle_eq_some h
      exact .flags (.refl _)
  | owner => exact ownerStep_move h

end Unp.ThreadPool

import Unp.Thread.Safety

/-!
# What becomes of a task

The pool keeps account of its tasks: what was added is what was taken, in the same order, and what is
still in the deque; and what a worker took is what it carried out and the one task it has in hand. It
holds through every stop and every cancellation.
-/

namespace Unp.ThreadPool

open Unp.Monitor Unp.Schedule

variable {τ : Type}

/-- The task that a worker has taken and not carried out yet. -/
def WorkerAt.inHand : WorkerAt τ → Option τ
  | .notify t | .unlock t | .run t => some t
  | _ => none

def inHand (ts : List (Worker τ)) (w : Nat) : Option τ := ts[w]?.bind fun x => x.place.inHand

def byWorker (w : Nat) (log : List (Nat × τ)) : List τ :=
  (log.filter fun e => e.1 == w).map Prod.snd

structure Account (s : Pool τ) : Prop where
  order : s.added = s.taken.map Prod.snd ++ s.tasks
  hands : ∀ w, byWorker w s.taken = byWorker w s.finished ++ (inHand s.threads w).toList

theorem byWorker_append (w : Nat) (log log' : List (Nat × τ)) :
    byWorker w (log ++ log') = byWorker w log ++ byWorker w log' := by
  simp [byWorker]

theorem byWorker_singleton (w v : Nat) (t : τ) :
    byWorker w [(v, t)] = if v = w then [t] else [] := by
  by_cases h : v = w <;> simp [byWorker, h]

theorem inHand_set {ts : List (Worker τ)} {w : Nat} {x : Worker τ} (hx : ts[w]? = some x)
    (y : Worker τ) (v : Nat) :
    inHand (ts.set w y) v = if w = v then y.place.inHand else inHand ts v := by
  rw [inHand, getElem?_set_of_some hx]
  by_cases hv : w = v
  · simp [hv]
  · simp [hv, inHand]

/-- A worker that goes on with the same task in hand. -/
theorem inHand_set_same {ts : List (Worker τ)} {w : Nat} {x y : Worker τ} (hx : ts[w]? = some x)
    (hy : y.place.inHand = x.place.inHand) (v : Nat) : inHand (ts.set w y) v = inHand ts v := by
  rw [inHand_set hx]
  split
  · next hv =>
      subst hv
      simp [inHand, hx, hy]
  · rfl

theorem inHand_woken {ts ts' : List (Worker τ)} (h : Woken Worker.asleep Worker.wake ts ts') (w : Nat) :
    inHand ts' w = inHand ts w := by
  cases hx : ts[w]? with
  | none =>
      have hlen : ts'.length ≤ w := h.1 ▸ List.getElem?_eq_none_iff.mp hx
      simp [inHand, hx, List.getElem?_eq_none hlen]
  | some x =>
      obtain ⟨y, hy, rfl | ⟨hs, rfl⟩⟩ := h.back hx
      · simp [inHand, hx, hy]
      · simp [inHand, hx, hy, Worker.wake, Worker.go, Worker.asleep_iff.mp hs, WorkerAt.inHand]

theorem inHand_samePlaces {ts ts' : List (Worker τ)} (h : SamePlaces ts ts') (w : Nat) :
    inHand ts' w = inHand ts w := by
  cases hx : ts[w]? with
  | none =>
      have hlen : ts'.length ≤ w := h.length_eq ▸ List.getElem?_eq_none_iff.mp hx
      simp [inHand, hx, List.getElem?_eq_none hlen]
  | some x =>
      obtain ⟨y, hy, hp⟩ := h.back hx
      simp [inHand, hx, hy, hp]

theorem inHand_append_fresh (ts : List (Worker τ)) (w : Nat) :
    inHand (ts ++ [Worker.fresh]) w = inHand ts w := by
  cases hx : (ts ++ [Worker.fresh])[w]? with
  | none =>
      have hlen := List.getElem?_eq_none_iff.mp hx
      rw [List.length_append] at hlen
      simp [inHand, hx, List.getElem?_eq_none (Nat.le_of_add_right_le hlen)]
  | some x =>
      rcases getElem?_append_fresh hx with hx' | ⟨rfl, rfl⟩
      · simp [inHand, hx, hx']
      · simp [inHand, Worker.fresh, WorkerAt.inHand]

theorem Quiet.inHand_eq {s : Pool τ} {x y : Worker τ} (h : Quiet s x y) :
    y.place.inHand = x.place.inHand := by
  cases h <;> simp_all [Worker.go, WorkerAt.inHand]

theorem Account.same {s s' : Pool τ} (hs : Account s) (hadded : s'.added = s.added)
    (htaken : s'.taken = s.taken) (hfinished : s'.finished = s.finished) (htasks : s'.tasks = s.tasks)
    (hhand : ∀ w, inHand s'.threads w = inHand s.threads w) : Account s' where
  order := by rw [hadded, htaken, htasks, hs.order]
  hands := by
    intro w
    rw [htaken, hfinished, hhand, hs.hands]

theorem WorkerMove.account {w : Nat} {s s' : Pool τ} {x : Worker τ} (h : WorkerMove w s x s')
    (hx : s.threads[w]? = some x) (hs : Account s) : Account s' := by
  cases h with
  | quiet hq => exact hs.same rfl rfl rfl rfl (inHand_set_same hx hq.inHand_eq)
  | acquire hm hp =>
      refine hs.same rfl rfl rfl rfl (inHand_set_same hx ?_)
      rcases hp with hp | hp <;> rw [hp] <;> rfl
  | sleep hp ht => exact hs.same rfl rfl rfl rfl (inHand_set_same hx (by rw [hp]; rfl))
  | @take t rest hp ht =>
      refine ⟨?_, ?_⟩
      · show s.added = (s.taken ++ [(w, t)]).map Prod.snd ++ rest
        rw [hs.order, ht]
        simp
      · intro v
        show byWorker v (s.taken ++ [(w, t)]) =
          byWorker v s.finished ++ (inHand (s.threads.set w (x.go (.notify t))) v).toList
        rw [byWorker_append, byWorker_singleton, hs.hands, inHand_set hx]
        by_cases hv : w = v
        · subst hv
          simp [inHand, hx, hp, Worker.go, WorkerAt.inHand]
        · simp [hv]
  | notify hp hn => exact hs.same rfl rfl rfl rfl (inHand_set_same hx (by rw [hp]; rfl))
  | unlock hp => exact hs.same rfl rfl rfl rfl (inHand_set_same hx (by rw [hp]; rfl))
  | @finish t hp =>
      refine ⟨hs.order, ?_⟩
      intro v
      show byWorker v s.taken = byWorker v (s.finished ++ [(w, t)]) ++
        (inHand (s.threads.set w (x.go .enable)) v).toList
      rw [byWorker_append, byWorker_singleton, hs.hands, inHand_set hx]
      by_cases hv : w = v
      · subst hv
        simp [inHand, hx, hp, Worker.go, WorkerAt.inHand]
      · simp [hv]
  | reacquire hm hp => exact hs.same rfl rfl rfl rfl (inHand_set_same hx (by rw [hp]; rfl))
  | cleanup hp => exact hs.same rfl rfl rfl rfl (inHand_set_same hx (by rw [hp]; rfl))

theorem ProducerMove.account {p : Nat} {s s' : Pool τ} {x : ProducerAt τ} (h : ProducerMove p s x s')
    (hs : Account s) : Account s' := by
  cases h with
  | @push t =>
      refine ⟨?_, hs.hands⟩
      show s.added ++ [t] = s.taken.map Prod.snd ++ (s.tasks ++ [t])
      rw [hs.order, List.append_assoc]
  | notify hn => exact hs.same rfl rfl rfl rfl (inHand_woken (woken_notifyOne hn))
  | acquire | sleep | room | unlock => exact hs.same rfl rfl rfl rfl fun _ => rfl

theorem Move.account {s s' : Pool τ} (h : Move s s') (hinv : Inv s) (hs : Account s) : Account s' := by
  cases h with
  | worker hx hmove => exact hmove.account hx hs
  | producer hx hmove => exact hmove.account hs
  | call hp => exact hs.same rfl rfl rfl rfl fun _ => rfl
  | wakeProducers hw => exact hs.same rfl rfl rfl rfl fun _ => rfl
  | wakeWorkers hw => exact hs.same rfl rfl rfl rfl (inHand_woken hw)
  | cancelWait hx hp hr => exact hs.same rfl rfl rfl rfl (inHand_set_same hx (by rw [hp]; rfl))
  | cancelRun hx hp hc hr =>
      -- a task is only run with cancellation off
      have hoff := hinv.uncancellable _ _ hx (by rw [hp]; rfl)
      exact absurd (hc.symm.trans hoff) (by decide)
  | spawn => exact hs.same rfl rfl rfl rfl (inHand_append_fresh _)
  | flags hts => exact hs.same rfl rfl rfl rfl (inHand_samePlaces hts)

theorem account_exec {n m : Nat} {as : List (Action τ)} {s : Pool τ}
    (hrun : exec step as (Pool.new n m) = some s) : Account s := by
  refine (exec_keeps (fun s => Inv s ∧ Account s) ?_ ⟨inv_new n m, rfl, ?_⟩ hrun).2
  · rintro s a s' ⟨hinv, hs⟩ hstep
    exact ⟨(step_move hstep).inv hinv, (step_move hstep).account hinv hs⟩
  · simp [Pool.new, byWorker, inHand]

/-- **Every task once, in order.** Tasks are taken in the order in which they were added and each by one
worker, which carries it out before it takes the next; a worker that has ended, also by cancellation,
has carried out everything it took. -/
theorem every_task_once {n m : Nat} {as : List (Action τ)} {s : Pool τ}
    (hrun : exec step as (Pool.new n m) = some s) :
    s.added = s.taken.map Prod.snd ++ s.tasks ∧
      (∀ w, byWorker w s.taken = byWorker w s.finished ++ (inHand s.threads w).toList) ∧
      ∀ (w : Nat) (x : Worker τ), s.threads[w]? = some x → x.place = .ended →
        byWorker w s.finished = byWorker w s.taken := by
  have hs := account_exec hrun
  refine ⟨hs.order, hs.hands, ?_⟩
  intro w x hx hp
  rw [hs.hands w, inHand, hx]
  simp [hp, WorkerAt.inHand]

/-- A worker is cancelled while it runs a task: it finishes the task and leaves the other one. -/
def cancelledRun : List (Action Nat) :=
  [.start, .owner, .owner, .call 0 7, .producer 0 0, .producer 0 0, .producer 0 0, .producer 0 0,
    .producer 0 0, .call 0 8, .producer 0 0, .producer 0 0, .producer 0 0, .producer 0 0,
    .producer 0 0, .worker 0 0, .worker 0 0, .worker 0 0, .worker 0 0, .worker 0 0, .worker 0 0,
    .worker 0 0, .cancel, .owner, .worker 0 0, .worker 0 0, .worker 0 0]

theorem every_task_once_cancelled :
    ∃ s, exec step cancelledRun (Pool.new 1 1) = some s ∧ s.added = [7, 8] ∧ s.tasks = [8] ∧
      byWorker 0 s.taken = [7] ∧ byWorker 0 s.finished = byWorker 0 s.taken := by
  have hrun : exec step cancelledRun (Pool.new 1 1) = some _ := rfl
  exact ⟨_, hrun, rfl, rfl, rfl, (every_task_once hrun).2.2 0 _ rfl rfl⟩

end Unp.ThreadPool

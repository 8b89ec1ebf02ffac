import Unp.Lib.Monitor

/-!
# The thread pool

`thread_pool` hands tasks from the threads that call `add_task` to its worker threads. They share a
deque under one mutex; `_has_task_cv` is for workers that find it empty, `_deque_full_cv` for callers
that find it full. The owner of the pool starts, stops, cancels and joins the workers.

Every thread is where its code is: a place for each line of `default_routine` and of `add_task` that
another thread can get in front of. A step carries out that line. The scheduler chooses the thread, and
which sleeper a `notify_one` wakes; a thread may also wake up from a condition variable on its own.

A task is opaque and returns; it does not call the pool itself. `_running` is a plain `bool` that is
read without the mutex; it is taken to be sequentially consistent.
-/

namespace Unp.ThreadPool

open Unp.Monitor

variable {τ : Type}

/-- Where a worker is in `default_routine`. -/
inductive WorkerAt (τ : Type) where
  /-- `while(_running)` -/
  | loop
  /-- `guard.lock()` -/
  | lock
  /-- `while(!has_task())` -/
  | check
  /-- Asleep in `_has_task_cv.wait(guard)`. -/
  | waiting
  /-- Woken in `wait`, without the mutex. -/
  | notified
  /-- Cancelled in `wait`, without the mutex: the cleanup handler runs when it has it again. -/
  | cancelled
  | cleanup
  | disable
  /-- `t = _tasks.front()`, `_tasks.pop_front()` -/
  | take
  /-- `_deque_full_cv.notify_one()` -/
  | notify (t : τ)
  | unlock (t : τ)
  /-- `t()` -/
  | run (t : τ)
  | enable
  /-- `pthread_testcancel()` -/
  | testcancel
  | ended
  deriving Repr, DecidableEq

structure Worker (τ : Type) where
  place : WorkerAt τ
  /-- `PTHREAD_CANCEL_ENABLE` -/
  cancellable : Bool
  cancelRequested : Bool
  joinable : Bool
  deriving Repr, DecidableEq

/-- A thread that has just been created. -/
def Worker.fresh : Worker τ := ⟨.loop, true, false, true⟩

/-- Where a thread is in `add_task`. -/
inductive ProducerAt (τ : Type) where
  | outside
  | lock (t : τ)
  /-- `while(deque_full())` -/
  | check (t : τ)
  /-- Asleep in `_deque_full_cv.wait(guard)`. -/
  | waiting (t : τ)
  | notified (t : τ)
  | push (t : τ)
  /-- `_has_task_cv.notify_one()` -/
  | notify
  | unlock
  deriving Repr, DecidableEq

/-- Where the owner of the pool is. -/
inductive OwnerAt where
  | idle
  /-- In `initialize`, with so many threads still to create. -/
  | initializing (left : Nat)
  /-- In `stop`. -/
  | notifyHasTask
  | notifyDequeFull
  | detach
  /-- In the first loop of `cancel`. -/
  | cancel (i : Nat)
  /-- In the second loop of `cancel`, or in `wait`. -/
  | join (i : Nat)
  deriving Repr, DecidableEq

inductive Tid where
  | worker (w : Nat)
  | producer (p : Nat)
  deriving Repr, DecidableEq

structure Pool (τ : Type) where
  nOfThreads : Nat
  running : Bool
  mutex : Option Tid
  tasks : List τ
  threads : List (Worker τ)
  producers : List (ProducerAt τ)
  owner : OwnerAt
  /-- Every task that was put into the deque, in order. -/
  added : List τ
  /-- Every task that was taken from it, with the worker. -/
  taken : List (Nat × τ)
  /-- Every task that was carried out to its end. -/
  finished : List (Nat × τ)
  deriving Repr, DecidableEq

/-- The constructor, with `m` threads that will call `add_task`. -/
def Pool.new (n m : Nat) : Pool τ :=
  ⟨n, false, none, [], [], List.replicate m .outside, .idle, [], [], []⟩

def Pool.hasTask (s : Pool τ) : Bool := !s.tasks.isEmpty

def Pool.dequeFull (s : Pool τ) : Bool := s.tasks.length > 1000

def WorkerAt.asleep : WorkerAt τ → Bool
  | .waiting => true
  | _ => false

def Worker.asleep (x : Worker τ) : Bool := x.place.asleep

def Worker.go (x : Worker τ) (place : WorkerAt τ) : Worker τ := { x with place := place }

def Worker.wake (x : Worker τ) : Worker τ := x.go .notified

def ProducerAt.asleep : ProducerAt τ → Bool
  | .waiting _ => true
  | _ => false

def ProducerAt.wake : ProducerAt τ → ProducerAt τ
  | .waiting t => .notified t
  | x => x

def Pool.setWorker (s : Pool τ) (w : Nat) (x : Worker τ) : Pool τ :=
  { s with threads := s.threads.set w x }

def Pool.setProducer (s : Pool τ) (p : Nat) (x : ProducerAt τ) : Pool τ :=
  { s with producers := s.producers.set p x }

/-- `_mutex.lock()`; the thread cannot go on while another one has the mutex. -/
def Pool.lock (s : Pool τ) (t : Tid) : Option (Pool τ) :=
  match s.mutex with
  | none => some { s with mutex := some t }
  | some _ => none

def Pool.unlock (s : Pool τ) : Pool τ := { s with mutex := none }

/-! ## The steps -/

/-- The next line of `default_routine` in worker `w`. -/
def defaultRoutine (w choice : Nat) (s : Pool τ) : Option (Pool τ) :=
  match s.threads[w]? with
  | none => none
  | some x =>
    match x.place with
    | .loop => some (s.setWorker w (x.go (if s.running then .lock else .ended)))
    | .lock => (s.lock (.worker w)).map fun s => s.setWorker w (x.go .check)
    | .check =>
        if s.hasTask then some (s.setWorker w (x.go .disable))
        else some (s.unlock.setWorker w (x.go .waiting))
    | .waiting => none
    | .notified => (s.lock (.worker w)).map fun s => s.setWorker w (x.go .check)
    | .cancelled => (s.lock (.worker w)).map fun s => s.setWorker w (x.go .cleanup)
    | .cleanup => some (s.unlock.setWorker w (x.go .ended))
    | .disable => some (s.setWorker w { x.go .take with cancellable := false })
    | .take =>
        match s.tasks with
        | [] => none -- `front` of an empty deque; no worker gets here, see `taskThere`
        | t :: rest =>
            some ({ s with tasks := rest, taken := s.taken ++ [(w, t)] }.setWorker w
              (x.go (.notify t)))
    | .notify t =>
        (notifyOne ProducerAt.asleep ProducerAt.wake choice s.producers).map fun ps =>
          { s with producers := ps }.setWorker w (x.go (.unlock t))
    | .unlock t => some (s.unlock.setWorker w (x.go (.run t)))
    | .run t =>
        some ({ s with finished := s.finished ++ [(w, t)] }.setWorker w (x.go .enable))
    | .enable => some (s.setWorker w { x.go .testcancel with cancellable := true })
    | .testcancel =>
        some (s.setWorker w (x.go (if x.cancellable && x.cancelRequested then .ended else .loop)))
    | .ended => none

/-- The next line of `add_task` in thread `p`. -/
def addTask (p choice : Nat) (s : Pool τ) : Option (Pool τ) :=
  match s.producers[p]? with
  | none => none
  | some x =>
    match x with
    | .outside => none
    | .lock t => (s.lock (.producer p)).map fun s => s.setProducer p (.check t)
    | .check t =>
        if s.dequeFull then some (s.unlock.setProducer p (.waiting t))
        else some (s.setProducer p (.push t))
    | .waiting _ => none
    | .notified t => (s.lock (.producer p)).map fun s => s.setProducer p (.check t)
    | .push t =>
        some ({ s with tasks := s.tasks ++ [t], added := s.added ++ [t] }.setProducer p .notify)
    | .notify =>
        (notifyOne Worker.asleep Worker.wake choice s.threads).map fun ts =>
          { s with threads := ts }.setProducer p .unlock
    | .unlock => some (s.unlock.setProducer p .outside)

/-- Cancellation is acted on inside `wait`, and wherever a task has a cancellation point. The first
goes for the mutex and then to the cleanup handler; in the second nothing is locked. -/
def cancellationPoint (w : Nat) (s : Pool τ) : Option (Pool τ) :=
  match s.threads[w]? with
  | none => none
  | some x =>
    if x.cancellable && x.cancelRequested then
      match x.place with
      | .waiting => some (s.setWorker w (x.go .cancelled))
      | .run _ => some (s.setWorker w (x.go .ended))
      | _ => none
    else none

/-- The next line of what the owner has called. A worker that has been detached or joined has the native
handle 0, and what `pthread_cancel(0)` does is undefined: here `cancel` asks such a worker like any other,
so what holds of a run says something about the code up to such a call. -/
def ownerStep (s : Pool τ) : Option (Pool τ) :=
  match s.owner with
  | .idle => none
  | .initializing 0 => some { s with owner := .idle }
  | .initializing (left + 1) =>
      some { s with threads := s.threads ++ [Worker.fresh], owner := .initializing left }
  | .notifyHasTask =>
      some { s with
        threads := notifyAll Worker.asleep Worker.wake s.threads, owner := .notifyDequeFull }
  | .notifyDequeFull =>
      some { s with
        producers := notifyAll ProducerAt.asleep ProducerAt.wake s.producers, owner := .detach }
  | .detach =>
      some { s with
        threads := s.threads.map fun x => { x with joinable := false }, owner := .idle }
  | .cancel i =>
      match s.threads[i]? with
      | none => some { s with owner := if s.running then .join 0 else .idle }
      | some x =>
          some ({ s with owner := .cancel (i + 1) }.setWorker i { x with cancelRequested := true })
  | .join i =>
      match s.threads[i]? with
      | none => some { s with owner := .idle }
      | some x =>
          if x.joinable then
            match x.place with
            | .ended =>
                some ({ s with owner := .join (i + 1) }.setWorker i { x with joinable := false })
            | _ => none
          else some { s with owner := .join (i + 1) }

/-- What can happen next. -/
inductive Action (τ : Type) where
  /-- Thread `p` calls `add_task(t)`. -/
  | call (p : Nat) (t : τ)
  | producer (p choice : Nat)
  | worker (w choice : Nat)
  /-- Spurious wakeups. -/
  | wakeProducer (p : Nat)
  | wakeWorker (w : Nat)
  | cancellationPoint (w : Nat)
  | setNumOfThreads (n : Nat)
  | start
  /-- `wait` with a timeout, when it is over; or the destructor. -/
  | stop
  | cancel
  /-- `wait` without a timeout. -/
  | wait
  | owner
  deriving Repr, DecidableEq

/-- The owner does one thing at a time. -/
def Pool.whenIdle (s : Pool τ) (s' : Pool τ) : Option (Pool τ) :=
  match s.owner with
  | .idle => some s'
  | _ => none

def step : Action τ → Pool τ → Option (Pool τ)
  | .call p t, s =>
      match s.producers[p]? with
      | some .outside => some (s.setProducer p (.lock t))
      | _ => none
  | .producer p choice, s => addTask p choice s
  | .worker w choice, s => defaultRoutine w choice s
  | .wakeProducer p, s =>
      match s.producers[p]? with
      | some x => if x.asleep then some (s.setProducer p x.wake) else none
      | none => none
  | .wakeWorker w, s =>
      match s.threads[w]? with
      | some x => if x.asleep then some (s.setWorker w x.wake) else none
      | none => none
  | .cancellationPoint w, s => cancellationPoint w s
  | .setNumOfThreads n, s => s.whenIdle { s with nOfThreads := n }
  | .start, s => s.whenIdle { s with running := true, owner := .initializing s.nOfThreads }
  | .stop, s => s.whenIdle { s with running := false, owner := .notifyHasTask }
  | .cancel, s => s.whenIdle { s with owner := if s.running then .cancel 0 else .idle }
  | .wait, s => s.whenIdle { s with owner := .join 0 }
  | .owner, s => ownerStep s

end Unp.ThreadPool

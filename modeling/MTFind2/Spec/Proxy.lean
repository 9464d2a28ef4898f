import MTFind2.Lib.PriorityQueue
import MTFind2.Spec.Client
import Mathlib.Data.Rat.Defs
import Mathlib.Logic.Function.Basic

/-!
# `SearchProxy`

The queues of search tasks, the worker threads that serve them, and the calls that
start and stop the workers, as one state with labelled steps (`SearchProxy.step`).
A worker's step carries what is left open: the number drawn, and which of several
maximal tasks the priority queue gives.

Each critical section is one atomic step. This takes in the look-ups `m_queue_locks[key]`
and `m_queues[key]`, which insert an entry on first use: the code makes the former before
it has the lock, and the latter under the lock of this key only, so the first uses by
several threads can race there.

Clients, requests and services are named by `κ`, `ρ` and `σ`; `Program` says what is
behind the names. A task carries the number of its submission, so that two tasks of
one client and request can be told apart, and the proxy keeps two logs that the
program has not: the tasks submitted, and the tasks handed to a service.
-/

namespace MTFind2

/-- The clients and requests behind the pointers. -/
structure Program (κ ρ : Type) where
  subscriptionType : κ → SubscriptionType
  request : ρ → SearchRequest

/-- `SearchTask`: a client and its request. -/
structure SearchTask (κ ρ : Type) where
  client : κ
  request : ρ
  ticket : ℕ
deriving DecidableEq

variable {σ κ ρ : Type}

/-- `SearchTaskCompare`. -/
def SearchTaskCompare (prog : Program κ ρ) (lhs rhs : SearchTask κ ρ) : Prop :=
  (prog.request lhs.request).timestamp < (prog.request rhs.request).timestamp

instance (prog : Program κ ρ) : DecidableRel (SearchTaskCompare prog) := fun _ _ =>
  inferInstanceAs (Decidable (_ < _))

/-- Where a worker thread stands. -/
inductive WorkerPhase (κ ρ : Type)
  /-- `while (m_keep_running)`. -/
  | looping
  /-- `handle_service_request`: the random number. -/
  | drawing
  /-- The critical section of the queue for a key. -/
  | taking (key : SubscriptionType)
  /-- The call `search_service.query(*client_ptr, *search_request_ptr)`. -/
  | handing (task : SearchTask κ ρ)
  | querying (task : SearchTask κ ρ)
  | exited
deriving DecidableEq

/-- A thread of `m_thread_pool`. -/
structure Worker (σ κ ρ : Type) where
  service : σ
  phase : WorkerPhase κ ρ
deriving DecidableEq

/-- The task that a worker has taken and not yet handed over. -/
def Worker.holding (w : Worker σ κ ρ) : Option (SearchTask κ ρ) :=
  match w.phase with
  | .handing task => some task
  | _ => none

/-- The worker has left its loop, so that `join()` returns. -/
def Worker.hasExited (w : Worker σ κ ρ) : Bool :=
  match w.phase with
  | .exited => true
  | _ => false

/-- `SearchProxy`. -/
structure SearchProxy (σ κ ρ : Type) where
  keepRunning : Bool
  searchServices : List σ
  queues : SubscriptionType → List (SearchTask κ ρ)
  threadPool : List (Worker σ κ ρ)
  /-- A `stop()` is in progress and holds `m_search_services_lock`. -/
  stopping : Bool
  /-- The calls of `add_search_service` past their check of `m_keep_running`. -/
  adding : List σ
  /-- `std::terminate` was called. -/
  aborted : Bool
  submitted : List (SearchTask κ ρ)
  handed : List (σ × SearchTask κ ρ)

/-- What a worker does in its next step. -/
inductive WorkerAction
  | loop
  | draw (p : ℚ)
  | take (index : ℕ)
  | hand
  | done
deriving DecidableEq

/-- The steps of the proxy. -/
inductive Event (σ κ ρ : Type)
  | query (client : κ) (request : ρ)
  /-- `add_search_service` checks `m_keep_running`, and throws if it is set. -/
  | addCheck (service : σ)
  /-- `add_search_service` pushes the service. -/
  | addPush (service : σ)
  | start
  /-- `stop()` takes the lock and clears `m_keep_running`. -/
  | stopBegin
  /-- `stop()` has joined all workers, clears the pool and returns. -/
  | stopReturn
  | worker (index : ℕ) (action : WorkerAction)
deriving DecidableEq

/-- The key for a number drawn: `p <= 0.8`, where `0.8` is the nearest `double`. -/
def drawnKey (p : ℚ) : SubscriptionType :=
  if p ≤ 3602879701896397 / 2 ^ 52 then .premium else .standard

namespace SearchProxy

/-- `SearchProxy()`. -/
def init : SearchProxy σ κ ρ where
  keepRunning := false
  searchServices := []
  queues _ := []
  threadPool := []
  stopping := false
  adding := []
  aborted := false
  submitted := []
  handed := []

/-- Worker `w` moves to another phase. -/
def setPhase (s : SearchProxy σ κ ρ) (w : ℕ) (x : Worker σ κ ρ) (phase : WorkerPhase κ ρ) :
    SearchProxy σ κ ρ :=
  { s with threadPool := s.threadPool.set w { x with phase } }

variable (prog : Program κ ρ)

/-- The next step of worker `w`, which is `x`. -/
def workerStep (s : SearchProxy σ κ ρ) (w : ℕ) (x : Worker σ κ ρ) :
    WorkerPhase κ ρ → WorkerAction → Option (SearchProxy σ κ ρ)
  | .looping, .loop => some (s.setPhase w x (if s.keepRunning then .drawing else .exited))
  | .drawing, .draw p => some (s.setPhase w x (.taking (drawnKey p)))
  | .taking key, .take j =>
    if s.queues key = [] then some (s.setPhase w x .looping)
    else (PriorityQueue.popAt (SearchTaskCompare prog) (s.queues key) j).map fun r =>
      { s.setPhase w x (.handing r.1) with queues := Function.update s.queues key r.2 }
  | .handing task, .hand =>
    some { s.setPhase w x (.querying task) with handed := s.handed ++ [(x.service, task)] }
  | .querying _, .done => some (s.setPhase w x .looping)
  | _, _ => none

/-- **One step of the proxy**, `none` where it is blocked. `start()` clears the pool first: the
threads in it have not been joined, and destroying one of them aborts the program. -/
def step [DecidableEq σ] (s : SearchProxy σ κ ρ) (e : Event σ κ ρ) : Option (SearchProxy σ κ ρ) :=
  if s.aborted then none
  else match e with
  | .query client request =>
    let key := prog.subscriptionType client
    let task := { client, request, ticket := s.submitted.length }
    some { s with
      queues := Function.update s.queues key (s.queues key ++ [task])
      submitted := s.submitted ++ [task] }
  | .addCheck service =>
    if s.keepRunning then some s else some { s with adding := s.adding ++ [service] }
  | .addPush service =>
    if service ∈ s.adding ∧ s.stopping = false then
      some { s with
        adding := s.adding.erase service
        searchServices := s.searchServices ++ [service] }
    else none
  | .start =>
    if s.stopping then none
    else if s.threadPool = [] then
      some { s with
        keepRunning := true
        threadPool := s.searchServices.map fun service => ⟨service, .looping⟩ }
    else some { s with keepRunning := true, aborted := true }
  | .stopBegin =>
    if s.stopping then none else some { s with keepRunning := false, stopping := true }
  | .stopReturn =>
    if s.stopping && s.threadPool.all Worker.hasExited then
      some { s with threadPool := [], stopping := false }
    else none
  | .worker w action => (s.threadPool[w]?).bind fun x => s.workerStep prog w x x.phase action

end SearchProxy

end MTFind2

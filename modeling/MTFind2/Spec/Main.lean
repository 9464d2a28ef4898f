import MTFind2.Spec.Proxy
import MTFind2.Spec.Service
import MTFind2.Spec.TextFile

/-!
# `main`

The whole program as one state with labelled steps (`Process.step`): the main thread, the
thread that mocks search requests, the workers of the search proxy with their calls of
`query`, the threads these spawn, and the signal handler, in any order.

`Environment` is what the program finds when it starts, and what it draws for each client
and request that it makes. The mock thread makes them one after the other, so number `n`
names a client, its request and the task submitted for both. Thread `i` of the call of
`query` for task `n` is named `(n, i)`. A call stays in the table after it has returned.

Each critical section of the proxy and each call that a search thread makes on its client
is one atomic step, as in `SearchProxy` and `System`; the locks inside a `push_message` are
those of `LockSystem`.
-/

namespace MTFind2

/-! ## The services and their sources -/

/-- An entry of the directory `data`, with its content if it is a file. -/
structure DirectoryEntry where
  path : StdString
  isRegularFile : Bool
  content : StdString

namespace TextFile

/-- `path.filename()`: what follows the last slash. -/
def filename (path : List UInt8) : List UInt8 := (path.reverse.takeWhile (· ≠ 47)).reverse

/-- What follows the last dot. -/
def suffix (name : List UInt8) : List UInt8 := (name.reverse.takeWhile (· ≠ 46)).reverse

/-- `path.extension()`: the last dot of the file name and what follows it. There is none for `..`,
nor if the only dot comes first. -/
def extension (path : List UInt8) : List UInt8 :=
  let name := filename path
  if name = [46, 46] ∨ name.length ≤ (suffix name).length + 1 then [] else 46 :: suffix name

end TextFile

/-- `entry.is_regular_file() && entry.path().extension() == ".txt"`. -/
def DirectoryEntry.isSample (entry : DirectoryEntry) : Bool :=
  entry.isRegularFile && decide (TextFile.extension entry.path.bytes = [46, 116, 120, 116])

/-- `new ContentSource(entry.path().string())`. -/
def DirectoryEntry.contentSource (entry : DirectoryEntry) : ContentSource :=
  .read entry.path entry.content

/-- `SearchService`: its sources, and whether `m_content_sources_lock` is held. -/
structure SearchService where
  contentSources : List ContentSource
  locked : Bool

/-- `add_content_source`, while no other thread runs. -/
def SearchService.addContentSource (service : SearchService) (source : ContentSource) :
    SearchService :=
  { service with contentSources := service.contentSources ++ [source] }

/-- `add_sample_content_sources`. -/
def addSampleContentSources (data : List DirectoryEntry) (searchServices : List SearchService) :
    List SearchService :=
  data.foldl (fun searchServices entry =>
    if entry.isSample then
      searchServices.map fun service => service.addContentSource entry.contentSource
    else searchServices) searchServices

/-! ## Clients and requests -/

/-- What is drawn for one client and its request, and the time when the request is made. There is
nothing to draw from a dictionary without words, for which the code asks for an index between 0 and
-1; nor are the exceptions modelled that end the program when the dictionary file or the directory
`data` is missing. -/
structure Draw (dictionary : Dictionary) where
  premium : Bool
  index : Fin dictionary.words.length
  now : ℤ

/-- What the program finds and draws. -/
structure Environment where
  /-- `std::thread::hardware_concurrency()`. -/
  hardwareConcurrency : ℕ
  data : List DirectoryEntry
  dictionary : Dictionary
  draws : ℕ → Draw dictionary

namespace Environment

variable (env : Environment)

/-- The result of the `n`-th `Client::create_random()`. -/
def client {ι : Type} (n : ℕ) : Client ι :=
  .createRandom (UInt32.ofNat n) (env.draws n).premium

/-- The result of the `n`-th `SearchRequest::create_random()`. -/
def request (n : ℕ) : SearchRequest :=
  (SearchRequest.createRandom env.dictionary (UInt64.ofNat n) (env.draws n).index
    (env.draws n).now).get (by simp [SearchRequest.createRandom, Dictionary.randomWord])

/-- The clients and requests behind the numbers. -/
def program : Program ℕ ℕ where
  subscriptionType n := (env.client n : Client ℕ).subscriptionType
  request := env.request

/-- `search_services`, after `add_sample_content_sources`. -/
def searchServices : List SearchService :=
  addSampleContentSources env.data (List.replicate env.hardwareConcurrency ⟨[], false⟩)

end Environment

/-! ## The process -/

/-- Where the thread `mock_thread` is. -/
inductive MockPhase
  | notStarted
  /-- `while (g_keep_running)`. -/
  | looping
  /-- In the `for` loop, with this `i`. -/
  | submitting (i : ℕ)
  | sleeping
  | ended
deriving DecidableEq

/-- Where the main thread is. -/
inductive MainPhase
  /-- At service `k` of the `for` loop: the check of `add_search_service`. -/
  | adding (k : ℕ)
  /-- `add_search_service` pushes service `k`. -/
  | pushing (k : ℕ)
  /-- `search_proxy.start()`. -/
  | starting
  /-- `mock_thread.join()`. -/
  | joining
  /-- `search_proxy.stop()`. -/
  | stopping
  /-- In `stop()`, which joins the workers. -/
  | joiningWorkers
  | returned
deriving DecidableEq

/-- A call of `query` by a worker. -/
structure QueryCall where
  service : ℕ
  task : SearchTask ℕ ℕ
  phase : QueryPhase
  threads : List (Option ℕ)

/-- **The program while it runs.** -/
structure Process where
  /-- `g_keep_running`. -/
  keepRunning : Bool
  mainThread : MainPhase
  mockThread : MockPhase
  searchServices : List SearchService
  searchProxy : SearchProxy ℕ ℕ ℕ
  calls : ℕ → Option QueryCall
  pool : System (ℕ × ℕ) ℕ

/-- Who moves. -/
inductive Action
  /-- The signal `SIGINT`. -/
  | interrupt
  | main
  | mock
  | worker (w : ℕ) (action : WorkerAction)
  /-- The worker in the call of `query` for task `n`. -/
  | caller (n : ℕ)
  /-- Thread `i` of that call. -/
  | thread (n i : ℕ)
deriving DecidableEq

/-- The client, with its threads named by `f`. -/
def Client.rename {ι ι' : Type} (f : ι → ι') (c : Client ι) : Client ι' :=
  { c with received := c.received.map fun m => (f m.1, m.2) }

namespace Process

/-- `search_request_count`. -/
def searchRequestCount : ℕ := 15

variable (env : Environment)

/-- The program at its loop over the services. -/
def init : Process where
  keepRunning := true
  mainThread := .adding 0
  mockThread := .notStarted
  searchServices := env.searchServices
  searchProxy := .init
  calls _ := none
  pool := { clients := env.client, threads := fun _ => none }

/-- **A service as the call for task `n` sees it**: its threads, and of the clients its own. -/
def view (s : Process) (n : ℕ) (call : QueryCall) (contentSources : List ContentSource)
    (locked : Bool) : Service ℕ where
  client := call.task.client
  request := env.request call.task.request
  contentSources := contentSources
  locked := locked
  phase := call.phase
  threads := call.threads
  pool :=
    { clients := Function.update env.client call.task.client
        ((s.pool.clients call.task.client).rename Prod.snd)
      threads := fun i => s.pool.threads (n, i) }

/-- The process after the caller's step of that call: the lock, the call and its threads. -/
def store (s : Process) (n : ℕ) (call : QueryCall) (t : Service ℕ) : Process :=
  { s with
    searchServices := s.searchServices.modify call.service fun service =>
      { service with locked := t.locked }
    calls := Function.update s.calls n (some { call with phase := t.phase, threads := t.threads })
    pool := { s.pool with
      threads := fun j => if j.1 = n then t.pool.threads j.2 else s.pool.threads j } }

/-- The next step of the main thread. `add_search_service` throws in a running proxy, and nothing
catches the exception. -/
def stepMain (s : Process) : Option Process :=
  match s.mainThread with
  | .adding k =>
    if k < s.searchServices.length then
      (s.searchProxy.step env.program (.addCheck k)).map fun searchProxy =>
        if s.searchProxy.keepRunning then
          { s with searchProxy := { searchProxy with aborted := true } }
        else { s with searchProxy, mainThread := .pushing k }
    else some { s with mockThread := .looping, mainThread := .starting }
  | .pushing k => (s.searchProxy.step env.program (.addPush k)).map fun searchProxy =>
      { s with searchProxy, mainThread := .adding (k + 1) }
  | .starting => (s.searchProxy.step env.program .start).map fun searchProxy =>
      { s with searchProxy, mainThread := .joining }
  | .joining => if s.mockThread = .ended then some { s with mainThread := .stopping } else none
  | .stopping => (s.searchProxy.step env.program .stopBegin).map fun searchProxy =>
      { s with searchProxy, mainThread := .joiningWorkers }
  | .joiningWorkers => (s.searchProxy.step env.program .stopReturn).map fun searchProxy =>
      { s with searchProxy, mainThread := .returned }
  | .returned => none

/-- The next step of `mock_thread`. -/
def stepMock (s : Process) : Option Process :=
  match s.mockThread with
  | .looping => some { s with mockThread := if s.keepRunning then .submitting 0 else .ended }
  | .submitting i =>
    if i < searchRequestCount then
      let n := s.searchProxy.submitted.length
      (s.searchProxy.step env.program (.query n n)).map fun searchProxy =>
        { s with searchProxy, mockThread := .submitting (i + 1) }
    else some { s with mockThread := .sleeping }
  | .sleeping => some { s with mockThread := .looping }
  | .notStarted | .ended => none

/-- The call for task `n` has returned. -/
def hasReturned (s : Process) (n : ℕ) : Bool :=
  decide ((s.calls n).map QueryCall.phase = some .returned)

/-- The next step of worker `w`, which calls `query` and goes on when the call has returned. -/
def stepWorker (s : Process) (w : ℕ) (action : WorkerAction) : Option Process :=
  (s.searchProxy.step env.program (.worker w action)).bind fun searchProxy =>
    match s.searchProxy.threadPool[w]? with
    | some ⟨service, .handing task⟩ =>
      let call : QueryCall := { service, task, phase := .called, threads := [] }
      some { s with searchProxy, calls := Function.update s.calls task.ticket (some call) }
    | some ⟨_, .querying task⟩ =>
      if s.hasReturned task.ticket then some { s with searchProxy } else none
    | _ => some { s with searchProxy }

/-- The next step of the worker inside the call for task `n`. -/
def stepCaller (s : Process) (n : ℕ) : Option Process :=
  (s.calls n).bind fun call => (s.searchServices[call.service]?).bind fun service =>
    (s.view env n call service.contentSources service.locked).stepCaller.map (s.store n call)

/-- **One step of the process**, `none` where it is blocked or `std::terminate` was called. -/
def step (s : Process) (a : Action) : Option Process :=
  if s.searchProxy.aborted then none
  else match a with
  | .interrupt => some { s with keepRunning := false }
  | .main => s.stepMain env
  | .mock => s.stepMock env
  | .worker w action => s.stepWorker env w action
  | .caller n => s.stepCaller env n
  | .thread n i => (s.pool.step (n, i)).map fun pool => { s with pool }

end Process

end MTFind2

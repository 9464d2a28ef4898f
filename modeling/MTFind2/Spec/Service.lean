import MTFind2.Spec.Search

/-!
# `SearchService::query` and `SearchService::add_content_source`

One call of `query` on a service, from before it takes `m_content_sources_lock`
to its return, with the threads it spawns and calls of `add_content_source` by
others in any order (`Service.step`).

The vector `threads` holds a `std::thread` per entry: `none` for one that is not
joinable, `some i` for one that runs thread `i` of the pool. It is built with
`m_content_sources.size()` entries that are not joinable, and the spawned threads
are appended to it.
-/

namespace MTFind2

/-- Where the caller of `query` is. -/
inductive QueryPhase
  /-- Before the lock of `m_content_sources_lock`. -/
  | called
  /-- In the loop that spawns threads, with these sources to go. -/
  | spawning (rest : List ContentSource)
  /-- In the loop that joins threads, at this index of the vector. -/
  | joining (index : ℕ)
  | returned
deriving DecidableEq

/-- A service during one call of `query` for `client` and `request`. -/
structure Service (κ : Type) where
  client : κ
  request : SearchRequest
  contentSources : List ContentSource
  /-- `m_content_sources_lock` is held by the call. -/
  locked : Bool
  phase : QueryPhase
  threads : List (Option ℕ)
  pool : System ℕ κ

/-- Who moves: a call of `add_content_source`, the caller of `query`, a spawned thread. -/
inductive Move
  | addContentSource (source : ContentSource)
  | caller
  | thread (i : ℕ)

namespace Service

variable {κ : Type} [DecidableEq κ]

/-- Before the call: no thread, the lock is free. -/
def init (clients : κ → Client ℕ) (contentSources : List ContentSource) (client : κ)
    (request : SearchRequest) : Service κ where
  client := client
  request := request
  contentSources := contentSources
  locked := false
  phase := .called
  threads := []
  pool := System.init clients fun _ => none

/-- `threads.emplace_back(..)`: the new thread is named by its index in the vector. -/
def spawn (s : Service κ) (source : ContentSource) : Service κ :=
  let i := s.threads.length
  let job : Job κ := { client := s.client, source, request := s.request }
  { s with
    threads := s.threads ++ [some i]
    pool := { s.pool with threads := Function.update s.pool.threads i (some ⟨job, job.start⟩) } }

/-- The thread of the pool has ended. -/
def ended (s : Service κ) (i : ℕ) : Bool :=
  decide ((s.pool.threads i).map Thread.phase = some .finished)

/-- The next step of the caller of `query`. -/
def stepCaller (s : Service κ) : Option (Service κ) :=
  match s.phase with
  | .called =>
    if s.locked then none
    else some { s with
      locked := true
      threads := List.replicate s.contentSources.length none
      phase := .spawning s.contentSources }
  | .spawning [] => some { s with phase := .joining 0 }
  | .spawning (source :: rest) => some { s.spawn source with phase := .spawning rest }
  | .joining k =>
    match s.threads[k]? with
    | some (some i) =>
      -- `thread.join()` blocks until the thread has ended; after it the entry is not joinable
      if s.ended i then some { s with threads := s.threads.set k none, phase := .joining (k + 1) }
      else none
    | some none => some { s with phase := .joining (k + 1) }
    | none => some { s with threads := [], locked := false, phase := .returned }
  | .returned => none

/-- **One step of the service.** -/
def step (s : Service κ) : Move → Option (Service κ)
  | .addContentSource source =>
    if s.locked then none else some { s with contentSources := s.contentSources ++ [source] }
  | .caller => s.stepCaller
  | .thread i => (s.pool.step i).map fun pool => { s with pool }

end Service

end MTFind2

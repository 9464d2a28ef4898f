import MTFind2.Lib.Run
import MTFind2.Spec.Client
import Mathlib.Logic.Function.Basic

/-!
# `SearchService::find_in_source` as a thread

A thread of `find_in_source` is a control point (`Phase`) and the locals of the
two loops (`Frame`). `Job.step` runs it up to and including its next call on the
client or the semaphore: `has_credit`, `push_message(NotEnoughCreditMessage)`,
`wait`, `consume_credit`, `push_message(SearchResultFoundMessage)`. Each of these
calls is one atomic step; the local computation in between (`search`,
`loopHead`, `enterLine`) belongs to the step before it. For `has_credit` and
`consume_credit` this is an assumption: they take no lock in the code, and `m_credit` is
a plain integer, so calls by several threads can race on it.

`System` is any number of such threads over any number of clients, run in any
order (`System.step`).
-/

namespace MTFind2

/-- The locals of `find_in_source` inside its loops: the current line, the lines after it,
and the structured binding `[start_pos, end_pos]`, which is a pair of `int`. -/
structure Frame where
  lineNumber : UInt64
  line : StdString
  later : List StdString
  startPos : Int32
  endPos : Int32
deriving DecidableEq

/-- The call that a thread of `find_in_source` makes next. -/
inductive Phase
  /-- `client.has_credit()`. -/
  | checking (f : Frame)
  /-- `client.push_message(NotEnoughCreditMessage(semaphore))`. -/
  | requesting (f : Frame) (semaphore : Semaphore)
  /-- `semaphore.wait()`. -/
  | waiting (f : Frame) (semaphore : Semaphore)
  /-- `client.consume_credit()`. -/
  | consuming (f : Frame) (isFinal : Bool)
  /-- `client.push_message(SearchResultFoundMessage(..))`. -/
  | delivering (f : Frame) (isFinal : Bool)
  | finished
deriving DecidableEq

/-- Line `n` and those after it: the inner loop starts with `make_tuple(0, 0)`, whose first
component is not `npos`. -/
def Phase.enterLine (n : UInt64) : List StdString → Phase
  | [] => .finished
  | line :: later => .checking { lineNumber := n, line, later, startPos := 0, endPos := 0 }

/-- The `break` of the inner loop, and `line_number++`. -/
def Frame.nextLine (f : Frame) : Phase := .enterLine (f.lineNumber + 1) f.later

/-- The condition of the inner loop, `start_pos != std::string::npos`. -/
def Frame.loopHead (f : Frame) : Phase :=
  if toSize f.startPos = npos then f.nextLine else .checking f

/-- The arguments of a call of `find_in_source`; the client is named by `κ`. -/
structure Job (κ : Type) where
  client : κ
  source : ContentSource
  request : SearchRequest
deriving DecidableEq

variable {ι κ : Type}

namespace Job

variable (job : Job κ)

/-- The first control point. -/
def start : Phase := .enterLine 1 job.source.lines

/-- From the credit check to the next call: the find, the `break` if nothing was found, and
else the look-ahead of the last line. -/
def search (f : Frame) : Phase :=
  let lowercaseQuery := TextHelper.transformToLowercase job.request.query
  let lowercaseLine := TextHelper.transformToLowercase f.line
  let found := TextHelper.findInString lowercaseLine lowercaseQuery (toSize f.endPos)
  let f := { f with startPos := toInt found.1, endPos := toInt found.2 }
  if toSize f.startPos = npos then f.nextLine
  else
    let isFinal :=
      if f.lineNumber = job.source.size then
        decide ((TextHelper.findInString lowercaseLine lowercaseQuery (toSize f.endPos)).1 = npos)
      else false
    .consuming f isFinal

/-- The `SearchResult` sent for the match of `f`. -/
def result (f : Frame) (isFinal : Bool) : SearchResult where
  contentSource := job.source
  surroundingText := TextHelper.surroundingText f.line (toSize f.startPos) (toSize f.endPos)
  line := f.lineNumber
  column := toSize (f.startPos + 1)
  length := job.request.query.size
  isFinalResult := isFinal

/-- The next step of the thread `i`, when `has_credit()` answers `credit`. -/
def stepGiven (credit : Bool) (i : ι) (c : Client ι) : Phase → Option (Client ι × Phase)
  | .checking f => some (c, if !credit then .requesting f ⟨0⟩ else job.search f)
  | .requesting f semaphore =>
    let (c, semaphore) := c.pushNotEnoughCredit i semaphore
    some (c, if c.subscriptionType = .standard then .finished else .waiting f semaphore)
  | .waiting f semaphore => semaphore.wait.map fun _ => (c, job.search f)
  | .consuming f isFinal => some (c.consumeCredit, .delivering f isFinal)
  | .delivering f isFinal =>
    some (c.pushSearchResultFound i job.request (job.result f isFinal), f.loopHead)
  | .finished => none

/-- **One atomic step** of the thread `i`. -/
def step (i : ι) (c : Client ι) (p : Phase) : Option (Client ι × Phase) :=
  job.stepGiven c.hasCredit i c p

/-- A single-threaded run of `n` steps (a finished run stays as it is). -/
def solo (i : ι) (n : ℕ) (s : Client ι × Phase) : Client ι × Phase :=
  (fun s => (job.step i s.1 s.2).getD s)^[n] s

/-- **A single-threaded run** for the client `c` ends, and `out` are the results it delivers. -/
def Delivers (i : ι) (c : Client ι) (out : List SearchResult) : Prop :=
  ∃ n, (job.solo i n (c.fresh, job.start)).2 = .finished ∧
    (job.solo i n (c.fresh, job.start)).1.results job.request = out.map fun r => (i, r)

/-- As `solo`, for a client whose `has_credit()` always answers true. -/
def soloUnlimited (i : ι) (n : ℕ) (s : Client ι × Phase) : Client ι × Phase :=
  (fun s => (job.stepGiven true i s.1 s.2).getD s)^[n] s

end Job

/-- A thread of `find_in_source`. -/
structure Thread (κ : Type) where
  job : Job κ
  phase : Phase
deriving DecidableEq

/-- **Threads over clients.** `threads i` is `none` while there is no thread `i`. -/
structure System (ι κ : Type) where
  clients : κ → Client ι
  threads : ι → Option (Thread κ)

namespace System

variable [DecidableEq ι] [DecidableEq κ]

/-- All threads of `jobs` at their first control point. -/
def init (clients : κ → Client ι) (jobs : ι → Option (Job κ)) : System ι κ where
  clients k := (clients k).fresh
  threads i := (jobs i).map fun job => ⟨job, job.start⟩

/-- **Thread `i` takes its next step.** -/
def step (s : System ι κ) (i : ι) : Option (System ι κ) :=
  (s.threads i).bind fun t =>
    (t.job.step i (s.clients t.job.client) t.phase).map fun r =>
      { clients := Function.update s.clients t.job.client r.1
        threads := Function.update s.threads i (some { t with phase := r.2 }) }

/-- Every thread has finished. -/
def Finished (s : System ι κ) : Prop := ∀ i, ∀ t ∈ s.threads i, t.phase = .finished

end System

end MTFind2

import MTFind2.Lib.Utf8
import MTFind2.Spec.Locks

/-!
# What the threads of `find_in_source` print

`LockSystem` again, with what its threads print: the tags of requests, sources and clients
(`Tagged`), the lines of each `push_message` (`Client.print`), and the line with which a
search is resumed.

Concurrent writers of `std::cout` and `std::cerr` may mix their characters, so each byte is a
step of its own: a thread writes all it has to (`pending`) before its next step with locks.
The label of a step carries what is left open, the text of a response time.
-/

namespace MTFind2

/-- The streams that are printed to. -/
inductive Stream
  | cout
  | cerr
deriving DecidableEq

/-- Bytes, each with its stream. -/
abbrev Output : Type := List (Stream × UInt8)

/-- The bytes of a string literal. -/
def literal (text : String) : List UInt8 := Utf8.encode text.toList

/-- `std::to_string(n)`, and `<< n`, for an unsigned `n`. -/
def decimal (n : ℕ) : List UInt8 := Utf8.encode (Nat.toDigits 10 n)

/-- `stream << line << std::endl`. -/
def Stream.print (stream : Stream) (line : List UInt8) : Output :=
  (line ++ literal "\n").map fun b => (stream, b)

/-- The bytes that the view shows. -/
def StringView.bytes (v : StringView) : List UInt8 := (v.source.bytes.drop v.pos).take v.len

/-- `SearchRequest::tag`. -/
def SearchRequest.tag (request : SearchRequest) : List UInt8 :=
  literal "SearchRequest(" ++ decimal request.id.toNat ++ literal ", \"" ++ request.query.bytes ++
    literal "\")"

/-- `ContentSource::tag`. -/
def ContentSource.tag (source : ContentSource) : List UInt8 :=
  literal "ContentSource(\"" ++ source.filePath.bytes ++ literal "\")"

namespace Client

variable {ι : Type} (c : Client ι)

/-- `Client::tag`. -/
def tag : List UInt8 :=
  let subscriptionTypeName := match c.subscriptionType with
    | .premium => literal "Premium"
    | .standard => literal "Standard"
  literal "Client(" ++ decimal c.id.toNat ++ literal ", " ++ subscriptionTypeName ++ literal ")"

/-- The first line that `push_message(const SearchResultFoundMessage &)` prints. -/
def resultLine (request : SearchRequest) (result : SearchResult) : List UInt8 :=
  request.tag ++ literal ": " ++ result.contentSource.tag ++
    literal ": line " ++ decimal result.line.toNat ++
    literal ", column " ++ decimal result.column.toNat ++
    literal ": ..." ++ result.surroundingText.bytes ++ literal "..." ++
    if result.isFinalResult then literal " (search yielded no more results)" else []

/-- **What a client prints** for a message, in the overload of `push_message` for it. The response
time of a result is `elapsed`. -/
def print (elapsed : List UInt8) : Message → Output
  | .notEnoughCredit => Stream.cout.print (c.tag ++ literal ": requesting more credit")
  | .creditRechargeResponse amount =>
    if amount = 0 then Stream.cerr.print (c.tag ++ literal ": ran out of credit!")
    else Stream.cout.print (c.tag ++ literal ": got " ++ decimal amount.toNat ++
      literal " in credit")
  | .noSearchResultsFound request =>
    Stream.cerr.print (c.tag ++ literal ": no results from " ++ request.query.bytes)
  | .searchResultFound request result =>
    Stream.cout.print (resultLine request result) ++
      Stream.cout.print (literal "total response time: " ++ elapsed ++ literal "ms")

end Client

namespace LockPhase

variable {ι κ : Type} (job : Job κ)

/-- What a thread prints at a control point, before the step from it. -/
def writes (c : Client ι) (elapsed : List UInt8) : LockPhase ι → Output
  | .requesting _ => c.print elapsed .notEnoughCredit
  | .recharging _ .respond _ => c.print elapsed (.creditRechargeResponse
      (PaymentService.answer c.subscriptionType Client.rechargeAmount))
  | .delivering f isFinal .print =>
    c.print elapsed (.searchResultFound job.request (job.result f isFinal))
  | _ => []

/-- What a thread prints after the step from a control point: back from `wait()`, it resumes the
search. -/
def resumes : LockPhase ι → Output
  | .recharging _ .unlockWait _ => Stream.cout.print
      (job.request.tag ++ literal ": resuming search request after credit recharge")
  | _ => []

end LockPhase

/-- A byte that was written, with the thread that wrote it, the client that the thread serves, and
whether the thread held the client's transaction lock. -/
structure Written (ι κ : Type) where
  thread : ι
  client : κ
  locked : Bool
  byte : Stream × UInt8
deriving DecidableEq

/-- **Threads with locks that print.** -/
structure PrintSystem (ι κ : Type) where
  system : LockSystem ι κ
  /-- What each thread has still to write. -/
  pending : ι → Output
  /-- What was written, in its order. -/
  out : List (Written ι κ)

namespace PrintSystem

variable {ι κ : Type}

def init (clients : κ → Client ι) (jobs : ι → Option (Job κ)) : PrintSystem ι κ where
  system := .init clients jobs
  pending _ := []
  out := []

variable [DecidableEq ι] [DecidableEq κ]

/-- What thread `i`, which was at the control point `p`, has to write after its step. -/
def written (system : LockSystem ι κ) (i : ι) (elapsed : List UInt8) (job : Job κ)
    (p : LockPhase ι) : Output :=
  p.resumes job ++ (system.threads i).elim [] fun t =>
    t.phase.writes job (system.clients job.client) elapsed

/-- **Thread `a.1` writes its next byte**, or takes its next step if it has written all; `a.2` is
the response time, should it print one. -/
def step (s : PrintSystem ι κ) (a : ι × List UInt8) : Option (PrintSystem ι κ) :=
  (s.system.threads a.1).bind fun t =>
    match s.pending a.1 with
    | b :: rest => some { s with
        pending := Function.update s.pending a.1 rest
        out := s.out ++ [{
          thread := a.1
          client := t.job.client
          locked := decide (s.system.clientLocks t.job.client = some a.1)
          byte := b }] }
    | [] => (s.system.step a.1).map fun system => { s with
        system
        pending := Function.update s.pending a.1 (written system a.1 a.2 t.job t.phase) }

end PrintSystem

end MTFind2

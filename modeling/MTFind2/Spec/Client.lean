import MTFind2.Spec.TextHelper

/-!
# Clients, messages and the payment service

One definition per `push_message` overload and per call that the search threads
make on a client. A reference parameter is passed in and returned, so
`PaymentService.pushMessage` returns the client and the semaphore it was asked
to act on.

`Client.received` lists the messages pushed to a client, oldest first, each with
the thread that pushed it (the program prints them, see `Spec/Printing`). The time stamp
of a result is left out: it is read for the response time only.
-/

namespace MTFind2

/-- `ContentSource`: a text file and its lines. -/
structure ContentSource where
  filePath : StdString
  lines : List StdString
  lines_lt : lines.length < 2 ^ 63
deriving DecidableEq

/-- `content_source.lines().size()`. -/
def ContentSource.size (src : ContentSource) : UInt64 := UInt64.ofNat src.lines.length

@[simp] theorem ContentSource.toNat_size (src : ContentSource) :
    src.size.toNat = src.lines.length := by
  have := src.lines_lt
  exact toNat_ofNat_lt (by omega)

/-- Every line is shorter than `2 ^ 31` bytes. -/
def ContentSource.Short (src : ContentSource) : Prop :=
  ∀ line ∈ src.lines, line.bytes.length < 2 ^ 31

instance (src : ContentSource) : Decidable src.Short :=
  inferInstanceAs (Decidable (∀ line ∈ src.lines, _))

/-- `SearchRequest`, with its `steady_clock` time stamp in ticks. -/
structure SearchRequest where
  id : UInt64
  query : StdString
  timestamp : ℤ
deriving DecidableEq

/-- `SearchResult`. -/
structure SearchResult where
  contentSource : ContentSource
  surroundingText : StringView
  line : UInt64
  column : UInt64
  length : UInt64
  isFinalResult : Bool
deriving DecidableEq

/-- The messages a `Client` receives. The semaphore of a `NotEnoughCreditMessage` is
passed beside it. -/
inductive Message
  | notEnoughCredit
  | creditRechargeResponse (amount : UInt64)
  | noSearchResultsFound (request : SearchRequest)
  | searchResultFound (request : SearchRequest) (result : SearchResult)
deriving DecidableEq

namespace Message

/-- The result that the message delivers for a request. -/
def resultFor (request : SearchRequest) : Message → Option SearchResult
  | .searchResultFound r result => if r = request then some result else none
  | _ => none

/-- The message delivers a result. -/
def isResult : Message → Bool
  | .searchResultFound _ _ => true
  | _ => false

/-- The amount of a recharge response, zero for the other messages. -/
def amount : Message → ℕ
  | .creditRechargeResponse amount => amount.toNat
  | _ => 0

end Message

/-- `Client::SubscriptionType`. -/
inductive SubscriptionType
  | standard
  | premium
deriving DecidableEq

/-- `Semaphore`: its count. -/
structure Semaphore where
  count : UInt32
deriving DecidableEq

namespace Semaphore

/-- `notify()`. -/
def notify (s : Semaphore) : Semaphore := ⟨s.count + 1⟩

/-- `wait()`: blocks (`none`) while the count is zero, else takes one. -/
def wait (s : Semaphore) : Option Semaphore := if s.count = 0 then none else some ⟨s.count - 1⟩

end Semaphore

/-- `Client`, for threads named by `ι`. -/
structure Client (ι : Type) where
  id : UInt32
  subscriptionType : SubscriptionType
  credit : Int32
  received : List (ι × Message)
deriving DecidableEq

/-- `CreditRechargeRequestMessage`. -/
structure CreditRechargeRequestMessage (ι : Type) where
  client : Client ι
  semaphore : Semaphore
  amount : UInt64

variable {ι : Type}

namespace Client

/-- The client at the start of its log. -/
def fresh (c : Client ι) : Client ι := { c with received := [] }

/-- The results delivered for a request, each with the thread that sent it. -/
def results (c : Client ι) (request : SearchRequest) : List (ι × SearchResult) :=
  c.received.filterMap fun m => (m.2.resultFor request).map fun result => (m.1, result)

/-- The number of results delivered. -/
def delivered (c : Client ι) : ℕ := c.received.countP fun m => m.2.isResult

/-- The sum of the recharge responses applied. -/
def recharged (c : Client ι) : ℕ := (c.received.map fun m => m.2.amount).sum

/-- `NotUsingCredit`. -/
def notUsingCredit : Int32 := -1

/-- `create_random()`, for the next id and the boolean drawn. -/
def createRandom (id : UInt32) (premium : Bool) : Client ι :=
  let subscriptionType := if premium then SubscriptionType.premium else .standard
  let credit := if subscriptionType = .premium then 15 else notUsingCredit
  { id, subscriptionType, credit, received := [] }

/-- Thread `i` pushes message `m`. -/
def receive (c : Client ι) (i : ι) (m : Message) : Client ι :=
  { c with received := c.received ++ [(i, m)] }

/-- `has_credit()`. -/
def hasCredit (c : Client ι) : Bool := decide (c.credit > 0)

/-- `consume_credit()`. -/
def consumeCredit (c : Client ι) : Client ι :=
  if c.hasCredit then { c with credit := c.credit - 1 } else c

/-- `m_credit += amount`: the sum is taken in `size_t` and stored in an `int32_t`. -/
def addCredit (credit : Int32) (amount : UInt64) : Int32 := toInt (toSize credit + amount)

/-- `push_message(const CreditRechargeResponseMessage &)`. -/
def pushCreditRechargeResponse (c : Client ι) (i : ι) (amount : UInt64) : Client ι :=
  let c := c.receive i (.creditRechargeResponse amount)
  if amount = 0 then c else { c with credit := addCredit c.credit amount }

/-- `push_message(const NoSearchResultsFoundMessage &)`. -/
def pushNoSearchResultsFound (c : Client ι) (i : ι) (request : SearchRequest) : Client ι :=
  c.receive i (.noSearchResultsFound request)

/-- `push_message(const SearchResultFoundMessage &)`. -/
def pushSearchResultFound (c : Client ι) (i : ι) (request : SearchRequest) (result : SearchResult) :
    Client ι :=
  c.receive i (.searchResultFound request result)

end Client

/-- The amount with which `PaymentService::push_message` answers a request: no recharge for
free users. -/
def PaymentService.answer (subscriptionType : SubscriptionType) (amount : UInt64) : UInt64 :=
  if subscriptionType = .premium then amount else 0

/-- `PaymentService::push_message(const CreditRechargeRequestMessage &)`. -/
def PaymentService.pushMessage (i : ι) (m : CreditRechargeRequestMessage ι) :
    Client ι × Semaphore :=
  let client := m.client.pushCreditRechargeResponse i
    (PaymentService.answer m.client.subscriptionType m.amount)
  (client, m.semaphore.notify)

/-- The amount a client asks for in `push_message(const NotEnoughCreditMessage &)`. -/
def Client.rechargeAmount : UInt64 := 15

/-- `push_message(const NotEnoughCreditMessage &)`. -/
def Client.pushNotEnoughCredit (c : Client ι) (i : ι) (semaphore : Semaphore) :
    Client ι × Semaphore :=
  PaymentService.pushMessage i
    ⟨c.receive i .notEnoughCredit, semaphore, Client.rechargeAmount⟩

end MTFind2

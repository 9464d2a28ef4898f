import MTFind2.Spec.Search

/-!
# What each call on a client changes

For every `push_message` overload and `consume_credit`: the credit, the results
delivered, the sum recharged and the subscription type after it. The later
modules use these and do not unfold the calls.
-/

namespace MTFind2

namespace Client

variable {ι : Type} (c : Client ι) (i : ι) (m : Message) (req : SearchRequest)

/-! ## Credit arithmetic -/

theorem hasCredit_iff : c.hasCredit = true ↔ 0 < c.credit.toInt := by
  simp [hasCredit, Int32.lt_iff_toInt_lt]

/-- `m_credit += amount` is the sum modulo `2 ^ 32`. -/
theorem toInt_addCredit (credit : Int32) (amount : UInt64) :
    (addCredit credit amount).toInt = (credit.toInt + amount.toNat).bmod (2 ^ 32) := by
  have h1 := toNat_toSize credit
  rw [addCredit, toInt_toInt, UInt64.toNat_add]
  refine Int.bmod_eq_bmod_iff_bmod_sub_eq_zero.2 (Int.bmod_eq_zero_of_dvd ?_)
  push_cast
  omega

theorem toInt_credit_sub_one {credit : Int32} (h : 0 < credit.toInt) :
    (credit - 1).toInt = credit.toInt - 1 := by
  have := credit.toInt_lt
  rw [Int32.toInt_sub]
  exact Int.bmod_eq_of_le (by simp; omega) (by simp; omega)

/-! ## Receiving a message -/

@[simp] theorem receive_credit : (c.receive i m).credit = c.credit := rfl

@[simp] theorem receive_subscriptionType :
    (c.receive i m).subscriptionType = c.subscriptionType := rfl

@[simp] theorem receive_received : (c.receive i m).received = c.received ++ [(i, m)] := rfl

@[simp] theorem receive_results : (c.receive i m).results req =
    c.results req ++ ((m.resultFor req).map fun r => (i, r)).toList := by
  simp only [results, receive_received, List.filterMap_append]
  cases h : m.resultFor req <;> simp [h]

@[simp] theorem receive_delivered :
    (c.receive i m).delivered = c.delivered + if m.isResult then 1 else 0 := by
  simp [delivered, List.countP_append, List.countP_singleton]

@[simp] theorem receive_recharged : (c.receive i m).recharged = c.recharged + m.amount := by
  simp [recharged]

@[simp] theorem fresh_credit : c.fresh.credit = c.credit := rfl

@[simp] theorem fresh_subscriptionType : c.fresh.subscriptionType = c.subscriptionType := rfl

@[simp] theorem fresh_received : c.fresh.received = [] := rfl

@[simp] theorem fresh_results : c.fresh.results req = [] := rfl

/-! ## `consume_credit` -/

@[simp] theorem consumeCredit_subscriptionType :
    c.consumeCredit.subscriptionType = c.subscriptionType := by
  unfold consumeCredit; split <;> rfl

@[simp] theorem consumeCredit_received : c.consumeCredit.received = c.received := by
  unfold consumeCredit; split <;> rfl

@[simp] theorem consumeCredit_results : c.consumeCredit.results req = c.results req := by
  simp [results]

@[simp] theorem consumeCredit_delivered : c.consumeCredit.delivered = c.delivered := by
  simp [delivered]

@[simp] theorem consumeCredit_recharged : c.consumeCredit.recharged = c.recharged := by
  simp [recharged]

/-- One credit is taken if there is one. -/
theorem toInt_consumeCredit :
    c.consumeCredit.credit.toInt = c.credit.toInt - if 0 < c.credit.toInt then 1 else 0 := by
  by_cases h : 0 < c.credit.toInt
  · rw [consumeCredit, if_pos ((hasCredit_iff c).2 h), if_pos h]
    exact toInt_credit_sub_one h
  · rw [consumeCredit, if_neg (by rw [hasCredit_iff]; exact h), if_neg h]
    simp

/-! ## `push_message(const CreditRechargeResponseMessage &)` -/

variable (a : UInt64)

@[simp] theorem pushResponse_subscriptionType :
    (c.pushCreditRechargeResponse i a).subscriptionType = c.subscriptionType := by
  unfold pushCreditRechargeResponse; dsimp only; split <;> rfl

@[simp] theorem pushResponse_received : (c.pushCreditRechargeResponse i a).received =
    c.received ++ [(i, .creditRechargeResponse a)] := by
  unfold pushCreditRechargeResponse; dsimp only; split <;> rfl

@[simp] theorem pushResponse_credit :
    (c.pushCreditRechargeResponse i a).credit =
      if a = 0 then c.credit else addCredit c.credit a := by
  unfold pushCreditRechargeResponse; dsimp only; split <;> rfl

/-! ## `push_message(const NotEnoughCreditMessage &)` -/

variable (sem : Semaphore)

/-- The amount that answers a recharge request of the client. -/
def answered : ℕ := (PaymentService.answer c.subscriptionType rechargeAmount).toNat

theorem answered_le : c.answered ≤ 15 := by
  unfold answered PaymentService.answer
  split <;> decide

/-- The recharge of the client leaves the range of an `int32_t`. -/
def Wraps : Prop := 2 ^ 31 ≤ c.credit.toInt + c.answered

instance : Decidable c.Wraps := inferInstanceAs (Decidable (_ ≤ _))

@[simp] theorem pushNotEnough_subscriptionType :
    (c.pushNotEnoughCredit i sem).1.subscriptionType = c.subscriptionType := by
  simp [pushNotEnoughCredit, PaymentService.pushMessage]

@[simp] theorem pushNotEnough_semaphore : (c.pushNotEnoughCredit i sem).2 = sem.notify := rfl

@[simp] theorem pushNotEnough_received : (c.pushNotEnoughCredit i sem).1.received =
    c.received ++ [(i, .notEnoughCredit), (i, .creditRechargeResponse
      (PaymentService.answer c.subscriptionType rechargeAmount))] := by
  simp [pushNotEnoughCredit, PaymentService.pushMessage]

@[simp] theorem pushNotEnough_results :
    (c.pushNotEnoughCredit i sem).1.results req = c.results req := by
  simp [results, Message.resultFor]

@[simp] theorem pushNotEnough_delivered :
    (c.pushNotEnoughCredit i sem).1.delivered = c.delivered := by
  simp [delivered, Message.isResult]

@[simp] theorem pushNotEnough_recharged : (c.pushNotEnoughCredit i sem).1.recharged =
    c.recharged + c.answered := by
  simp [recharged, Message.amount, answered]

/-- The credit after a recharge request: unchanged for a standard client. -/
theorem pushNotEnough_credit : (c.pushNotEnoughCredit i sem).1.credit =
    if c.subscriptionType = .premium then addCredit c.credit rechargeAmount else c.credit := by
  cases h : c.subscriptionType <;>
    simp [pushNotEnoughCredit, PaymentService.pushMessage, PaymentService.answer, h, rechargeAmount]

/-- A recharge request adds the amount of its response, modulo `2 ^ 32`. -/
theorem toInt_pushNotEnough_credit : (c.pushNotEnoughCredit i sem).1.credit.toInt =
    c.credit.toInt + c.answered - if c.Wraps then 2 ^ 32 else 0 := by
  have hle := c.credit.le_toInt
  have hlt := c.credit.toInt_lt
  have ha := c.answered_le
  have hw : c.Wraps ↔ 2 ^ 31 ≤ c.credit.toInt + c.answered := Iff.rfl
  rw [pushNotEnough_credit]
  cases hs : c.subscriptionType
  · have h0 : c.answered = 0 := by simp [answered, PaymentService.answer, hs]
    rw [if_neg (by simp), h0, if_neg fun h => by have := hw.1 h; omega]
    simp
  · have h15 : c.answered = rechargeAmount.toNat := by simp [answered, PaymentService.answer, hs]
    rw [if_pos rfl, toInt_addCredit, ← h15]
    by_cases h : c.Wraps
    · have := hw.1 h
      rw [if_pos h, ← Int.sub_bmod_right, Int.bmod_eq_of_le (by omega) (by omega)]
      norm_num
    · have : c.credit.toInt + c.answered < 2 ^ 31 := not_le.1 (mt hw.2 h)
      rw [if_neg h, Int.bmod_eq_of_le (by omega) (by omega)]
      omega

/-! ## `push_message(const SearchResultFoundMessage &)` -/

variable (r : SearchResult)

@[simp] theorem pushResult_credit : (c.pushSearchResultFound i req r).credit = c.credit := rfl

@[simp] theorem pushResult_subscriptionType :
    (c.pushSearchResultFound i req r).subscriptionType = c.subscriptionType := rfl

@[simp] theorem pushResult_received : (c.pushSearchResultFound i req r).received =
    c.received ++ [(i, .searchResultFound req r)] := rfl

@[simp] theorem pushResult_results : (c.pushSearchResultFound i req r).results req =
    c.results req ++ [(i, r)] := by
  simp [pushSearchResultFound, Message.resultFor]

theorem pushResult_results_ne {req' : SearchRequest} (h : req ≠ req') :
    (c.pushSearchResultFound i req r).results req' = c.results req' := by
  simp [pushSearchResultFound, Message.resultFor, h]

@[simp] theorem pushResult_delivered :
    (c.pushSearchResultFound i req r).delivered = c.delivered + 1 := by
  simp [pushSearchResultFound, Message.isResult]

@[simp] theorem pushResult_recharged :
    (c.pushSearchResultFound i req r).recharged = c.recharged := by
  simp [pushSearchResultFound, Message.amount]

end Client

end MTFind2

import MTFind2.Proof.Atomicity
import MTFind2.Proof.Deadlock
import MTFind2.Spec.Printing

/-!
# What is printed under a client's lock

The handlers of results and of recharges print under the transaction lock of their client,
and threads may mix their output byte by byte.

* `HandlerStep`: the steps as the handlers see them: the lock is taken, a message is
  received under it, the lock is given back.
* `Covers`: what was written under the lock of a client, against the lines for its messages.
  `covers_write`: a byte is the next one of its line. `covers_move_self`: a message is received
  when its lines are written.
* `whole_lines`: so what is written under a client's lock is line after line whole, in the
  order of the messages, and without the output, a run is one of `LockSystem`.

The lines for `NotEnoughCreditMessage` are printed without a lock, and can be mixed up
(`mixedSched`).
-/

namespace MTFind2

open Run

variable {ι κ : Type}

/-! ## Lines -/

namespace Client

/-- The lines for the messages of the log, printed in its order by the threads that sent them, with
these response times. -/
def lines (c : Client ι) (times : List (List UInt8)) (log : List (ι × Message)) :
    List (ι × Stream × UInt8) :=
  (List.zipWith (fun time m => (c.print time m.2).map (Prod.mk m.1)) times log).flatten

theorem lines_append (c : Client ι) {times : List (List UInt8)} {log : List (ι × Message)}
    (h : times.length = log.length) (time : List UInt8) (i : ι) (m : Message) :
    c.lines (times ++ [time]) (log ++ [(i, m)]) =
      c.lines times log ++ (c.print time m).map (Prod.mk i) := by
  unfold lines
  rw [List.zipWith_append h]
  simp

/-- A client prints its tag and its messages, and nothing else. -/
theorem print_congr {c c' : Client ι} (h : c'.tag = c.tag) : c'.print = c.print := by
  funext time m
  cases m <;> simp only [print, h]

theorem lines_congr {c c' : Client ι} (h : c'.tag = c.tag) : c'.lines = c.lines := by
  funext times log
  simp only [lines, print_congr h]

end Client

theorem LockPhase.writes_congr {job : Job κ} {c c' : Client ι} (p : LockPhase ι)
    (htag : c'.tag = c.tag) (htype : c'.subscriptionType = c.subscriptionType)
    (elapsed : List UInt8) : p.writes job c' elapsed = p.writes job c elapsed := by
  unfold writes
  rw [Client.print_congr htag, htype]

namespace Job

variable (job : Job κ) {i : ι} {v v' : View ι} {p p' : LockPhase ι}

/-- The tag of a client stays. -/
theorem lockStep_tag (h : job.LockStep i v p v' p') : v'.client.tag = v.client.tag := by
  cases h with
  | request | print => rfl
  | respond =>
    unfold Client.pushCreditRechargeResponse
    dsimp only
    split <;> rfl
  | consume =>
    unfold Client.consumeCredit
    dsimp only
    split <;> rfl
  | _ => rfl

/-- The steps as the handlers that lock the client see them. -/
inductive HandlerStep (i : ι) (v : View ι) (p : LockPhase ι) (v' : View ι) (p' : LockPhase ι) : Prop
  /-- The handler has printed its message, and it is received. -/
  | receive (m : Message) (hp : p.holdsClient = true)
      (hm : ∀ elapsed, p.writes job v.client elapsed = v.client.print elapsed m)
      (hlock : v'.clientLock = v.clientLock)
      (hlog : v'.client.calls.received = v.client.calls.received ++ [(i, m)])
      (hnext : p.resumes job = [] ∧ ∀ elapsed, p'.writes job v'.client elapsed = [])
  | lock (hfree : v.clientLock = none) (hlock : v'.clientLock = some i)
      (hlog : v'.client.calls.received = v.client.calls.received) (hresumes : p.resumes job = [])
  | unlock (hp : ∀ elapsed, p.writes job v.client elapsed = []) (hheld : v.clientLock = some i)
      (hlock : v'.clientLock = none)
      (hlog : v'.client.calls.received = v.client.calls.received)
  | other (hp : p.holdsClient = false) (hlock : v'.clientLock = v.clientLock)
      (hlog : v'.client.calls.received = v.client.calls.received)

/-- **What a step is for the handlers.** -/
theorem handler_cases (h : job.LockStep i v p v' p') : job.HandlerStep i v p v' p' := by
  cases h with
  | respond f sem =>
    refine .receive (.creditRechargeResponse (PaymentService.answer v.client.subscriptionType
      Client.rechargeAmount)) rfl (fun _ => rfl) rfl ?_ ⟨rfl, fun _ => rfl⟩
    dsimp only
    rw [Client.calls_pushResponse, Client.pushResponse_received]
  | print f b =>
    refine .receive (.searchResultFound job.request (job.result f b)) rfl (fun _ => rfl) rfl ?_
      ⟨rfl, fun _ => rfl⟩
    unfold Client.pushSearchResultFound
    rw [Client.calls_receive _ _ _ (by simp)]
    rfl
  | lockClient f sem hl | lockDelivery f b hl => exact .lock hl rfl rfl rfl
  | unlockClient f sem hl | unlockDelivery f b hl => exact .unlock (fun _ => rfl) hl rfl rfl
  | request f =>
    refine .other rfl rfl ?_
    dsimp only
    rw [Client.calls_notEnough]
  | consume f b =>
    refine .other rfl rfl ?_
    dsimp only
    rw [Client.calls_consumeCredit, Client.consumeCredit_received]
  | check | lockPayment | lockNotify | notify | unlockNotify | unlockPayment | returned | lockWait
  | testCount | unlockWait => exact .other rfl rfl rfl

end Job

namespace PrintSystem

variable [DecidableEq ι] [DecidableEq κ]

/-! ## Steps -/

/-- The state after a thread has written its next byte. -/
def wrote (s : PrintSystem ι κ) (i : ι) (t : LockThread ι κ) (b : Stream × UInt8)
    (rest : Output) : PrintSystem ι κ :=
  { s with
    pending := Function.update s.pending i rest
    out := s.out ++
      [⟨i, t.job.client, decide (s.system.clientLocks t.job.client = some i), b⟩] }

/-- The state after a thread has made a step with locks. -/
def moved (s : PrintSystem ι κ) (i : ι) (t : LockThread ι κ) (v : View ι) (p : LockPhase ι)
    (elapsed : List UInt8) : PrintSystem ι κ :=
  { s with
    system :=
      { clients := Function.update s.system.clients t.job.client v.client
        clientLocks := Function.update s.system.clientLocks t.job.client v.clientLock
        paymentLock := v.paymentLock
        threads := Function.update s.system.threads i (some { t with phase := p }) }
    pending := Function.update s.pending i
      (t.phase.resumes t.job ++ p.writes t.job v.client elapsed) }

/-- The steps: a byte is written, or a step with locks is made. -/
inductive Step (s : PrintSystem ι κ) (i : ι) (elapsed : List UInt8) : PrintSystem ι κ → Prop
  | write (t : LockThread ι κ) (b : Stream × UInt8) (rest : Output)
      (ht : s.system.threads i = some t) (hb : s.pending i = b :: rest) :
      Step s i elapsed (s.wrote i t b rest)
  | move (t : LockThread ι κ) (v : View ι) (p : LockPhase ι) (ht : s.system.threads i = some t)
      (hb : s.pending i = []) (hstep : t.job.LockStep i (s.system.view t.job.client) t.phase v p) :
      Step s i elapsed (s.moved i t v p elapsed)

theorem step_cases {s s' : PrintSystem ι κ} {a : ι × List UInt8} (h : s.step a = some s') :
    Step s a.1 a.2 s' := by
  obtain ⟨t, ht, h⟩ := Option.bind_eq_some_iff.1 h
  split at h
  · rename_i b rest hb
    cases h
    exact .write t b rest ht hb
  · rename_i hb
    obtain ⟨system, hs, h⟩ := Option.map_eq_some_iff.1 h
    cases h
    obtain ⟨u, v, p, hu, hstep, rfl⟩ := LockSystem.step_cases hs
    rw [ht] at hu
    cases hu
    have hmove : Step s a.1 a.2 _ := .move t v p ht hb hstep
    simpa [moved, written] using hmove

/-! ## Whole lines -/

/-- What was written under the lock of client `k`, and by which threads. -/
def underLock (k : κ) (out : List (Written ι κ)) : List (ι × Stream × UInt8) :=
  (out.filter fun w => decide (w.client = k) && w.locked).map fun w => (w.thread, w.byte)

omit [DecidableEq ι] in
theorem underLock_append (k : κ) (out : List (Written ι κ)) (w : Written ι κ) :
    underLock k (out ++ [w]) = underLock k out ++
      if w.client = k ∧ w.locked = true then [(w.thread, w.byte)] else [] := by
  by_cases hk : w.client = k <;> cases hl : w.locked <;> simp [underLock, hk, hl]

/-- **What was written under the lock of client `k` are the lines for the messages that it has
received under it**, with these response times, whole and in the order of the messages. A thread
that holds the lock has written a first part of the lines of the message that it is about (`front`),
and the rest is pending. Each response time is one of the `texts`. -/
structure Covers (texts : List (List UInt8)) (s : PrintSystem ι κ) (k : κ)
    (times : List (List UInt8)) : Prop where
  subset : times ⊆ texts
  length : times.length = (s.system.clients k).calls.received.length
  free : s.system.clientLocks k = none →
    underLock k s.out = (s.system.clients k).lines times (s.system.clients k).calls.received
  held : ∀ i t, s.system.clientLocks k = some i → s.system.threads i = some t →
    ∃ elapsed ∈ texts, ∃ front,
      t.phase.writes t.job (s.system.clients k) elapsed = front ++ s.pending i ∧
        underLock k s.out = (s.system.clients k).lines times (s.system.clients k).calls.received ++
          front.map (Prod.mk i)

omit [DecidableEq ι] in
theorem covers_init (texts : List (List UInt8)) (clients : κ → Client ι)
    (jobs : ι → Option (Job κ)) (k : κ) : Covers texts (init clients jobs) k [] :=
  ⟨List.nil_subset _, rfl, fun _ => rfl, fun i t hi => by cases hi⟩

variable {s s' : PrintSystem ι κ} {i j : ι} {k : κ} {t : LockThread ι κ}
  {texts times : List (List UInt8)}

/-- The holder of a client's lock serves this client, and is in its critical section. -/
theorem holder (hI : s.system.LockInv) (hlock : s.system.clientLocks k = some i)
    (ht : s.system.threads i = some t) : t.job.client = k ∧ t.phase.holdsClient = true := by
  have hany := (hI.client k i).1 hlock
  rw [ht] at hany
  simpa using hany

/-- **A byte is written**: it is one of the lines if its writer holds the lock. -/
theorem covers_write {b : Stream × UInt8} {rest : Output} (hI : s.system.LockInv)
    (hC : Covers texts s k times) (ht : s.system.threads i = some t)
    (hb : s.pending i = b :: rest) : Covers texts (s.wrote i t b rest) k times := by
  have hout : underLock k (s.wrote i t b rest).out = underLock k s.out ++
      if t.job.client = k ∧ decide (s.system.clientLocks t.job.client = some i) = true
      then [(i, b)] else [] := underLock_append k s.out _
  refine ⟨hC.subset, hC.length, ?_, ?_⟩
  · intro hfree
    change s.system.clientLocks k = none at hfree
    have hnot : ¬ (t.job.client = k ∧
        decide (s.system.clientLocks t.job.client = some i) = true) := by
      rintro ⟨rfl, hi⟩
      simp [hfree] at hi
    rw [hout, if_neg hnot, List.append_nil]
    exact hC.free hfree
  · intro j u hj hu
    change s.system.clientLocks k = some j at hj
    change s.system.threads j = some u at hu
    obtain ⟨elapsed, hmem, front, hwrites, heq⟩ := hC.held j u hj hu
    by_cases hij : j = i
    · subst hij
      rw [ht] at hu
      cases hu
      obtain ⟨rfl, -⟩ := holder hI hj ht
      refine ⟨elapsed, hmem, front ++ [b], ?_, ?_⟩
      · simp [wrote, hwrites, hb]
      · rw [hout, if_pos ⟨rfl, decide_eq_true hj⟩, heq]
        simp [wrote]
    · -- the holder is another thread
      have hnot : ¬ (t.job.client = k ∧
          decide (s.system.clientLocks t.job.client = some i) = true) := by
        rintro ⟨rfl, hi⟩
        rw [hj] at hi
        exact hij (by simpa using hi)
      refine ⟨elapsed, hmem, front, by simpa [wrote, hij] using hwrites, ?_⟩
      rw [hout, if_neg hnot, List.append_nil]
      exact heq

variable {v : View ι} {p : LockPhase ι} {elapsed : List UInt8}

/-- A step with locks changes nothing for the clients that its thread does not serve. -/
theorem covers_move_ne (hI : s.system.LockInv) (hC : Covers texts s k times)
    (ht : s.system.threads i = some t) (hk : k ≠ t.job.client) :
    Covers texts (s.moved i t v p elapsed) k times := by
  obtain ⟨htexts, hlength, hfree, hheld⟩ := hC
  refine ⟨htexts, by simpa [moved, hk] using hlength, by simpa [moved, hk] using hfree, ?_⟩
  intro j u hj hu
  have hj' : s.system.clientLocks k = some j := by simpa [moved, hk] using hj
  have hij : j ≠ i := by
    rintro rfl
    exact hk (holder hI hj' ht).1.symm
  have hu' : s.system.threads j = some u := by simpa [moved, hij] using hu
  simpa [moved, hk, hij] using hheld j u hj' hu'

/-- **A step with locks keeps the lines of the client whole**, in each of the cases that its
handlers see. -/
theorem covers_move_self (hI : s.system.LockInv) (hC : Covers texts s t.job.client times)
    (ht : s.system.threads i = some t) (hb : s.pending i = [])
    (hstep : t.job.LockStep i (s.system.view t.job.client) t.phase v p) (hmem : elapsed ∈ texts) :
    ∃ times', Covers texts (s.moved i t v p elapsed) t.job.client times' := by
  obtain ⟨htexts, hlength, hfree, hheld⟩ := hC
  have htag := t.job.lockStep_tag hstep
  have htype := (t.job.lockStep_frame hstep).1
  dsimp only [LockSystem.view] at htag htype
  have hlines := Client.lines_congr htag
  cases t.job.handler_cases hstep with
  | receive m hp hm hlock hlog hnext =>
    dsimp only [LockSystem.view] at hm hlock hlog
    have hi : s.system.clientLocks t.job.client = some i := by
      rw [hI.client, ht]
      simpa using hp
    obtain ⟨time, htime, front, hwrites, heq⟩ := hheld i t hi ht
    -- nothing is pending, so the front is the whole message
    rw [hb, List.append_nil, hm] at hwrites
    rw [← hwrites, ← Client.lines_append _ hlength] at heq
    refine ⟨times ++ [time], ?_, ?_, ?_, ?_⟩
    · simpa using ⟨htexts, htime⟩
    · simp [moved, hlog, hlength]
    · intro hnone
      simp [moved, hlock, hi] at hnone
    · intro j u hj hu
      obtain rfl : i = j := by simpa [moved, hlock, hi] using hj
      obtain rfl : { t with phase := p } = u := by simpa [moved] using hu
      refine ⟨elapsed, hmem, [], by simp [moved, hnext.1, hnext.2], ?_⟩
      simpa [moved, hlog, hlines] using heq
  | lock hnone hlock hlog hresumes =>
    dsimp only [LockSystem.view] at hnone hlog
    refine ⟨times, htexts, by simp [moved, hlog, hlength], ?_, ?_⟩
    · intro h
      simp [moved, hlock] at h
    · intro j u hj hu
      obtain rfl : i = j := by simpa [moved, hlock] using hj
      obtain rfl : { t with phase := p } = u := by simpa [moved] using hu
      refine ⟨elapsed, hmem, [], by simp [moved, hresumes], ?_⟩
      simp [moved, hlog, hlines, hfree hnone]
  | unlock hp hi hlock hlog =>
    dsimp only [LockSystem.view] at hp hi hlog
    obtain ⟨time, -, front, hwrites, heq⟩ := hheld i t hi ht
    rw [hb, hp, List.append_nil] at hwrites
    rw [← hwrites, List.map_nil, List.append_nil] at heq
    refine ⟨times, htexts, by simp [moved, hlog, hlength], ?_, ?_⟩
    · intro _
      simpa [moved, hlog, hlines] using heq
    · intro j u hj
      simp [moved, hlock] at hj
  | other hp hlock hlog =>
    dsimp only [LockSystem.view] at hlock hlog
    refine ⟨times, htexts, by simp [moved, hlog, hlength], ?_, ?_⟩
    · intro hnone
      simpa [moved, hlog, hlines] using hfree (by simpa [moved, hlock] using hnone)
    · intro j u hj hu
      have hj' : s.system.clientLocks t.job.client = some j := by simpa [moved, hlock] using hj
      -- the thread that moves holds no lock of a client
      have hij : j ≠ i := by
        rintro rfl
        rw [(holder hI hj' ht).2] at hp
        cases hp
      have hu' : s.system.threads j = some u := by simpa [moved, hij] using hu
      obtain ⟨time, htime, front, hwrites, heq⟩ := hheld j u hj' hu'
      refine ⟨time, htime, front, ?_, ?_⟩
      · simpa [moved, hij, LockPhase.writes_congr u.phase htag htype] using hwrites
      · simpa [moved, hlog, hlines] using heq

/-! ## Runs -/

/-- What every state of a run is like whose labels have these texts. -/
structure Whole (texts : List (List UInt8)) (s : PrintSystem ι κ) : Prop where
  inv : s.system.LockInv
  covers : ∀ k, ∃ times, Covers texts s k times

/-- **Every step keeps the lines whole.** -/
theorem whole_step {a : ι × List UInt8} (h : Whole texts s) (ha : a.2 ∈ texts)
    (hs : s.step a = some s') : Whole texts s' := by
  cases step_cases hs with
  | write t b rest ht hb =>
    refine ⟨h.inv, fun k => ?_⟩
    obtain ⟨times, hC⟩ := h.covers k
    exact ⟨times, covers_write h.inv hC ht hb⟩
  | move t v p ht hb hstep =>
    refine ⟨LockSystem.lockInv_step h.inv (LockSystem.step_of_lockStep ht hstep), fun k => ?_⟩
    obtain ⟨times, hC⟩ := h.covers k
    by_cases hk : k = t.job.client
    · subst hk
      exact covers_move_self h.inv hC ht hb hstep ha
    · exact ⟨times, covers_move_ne h.inv hC ht hk⟩

/-- The step with locks that a step is, if its thread has nothing left to write. -/
def lockLabel (s : PrintSystem ι κ) (a : ι × List UInt8) : Option ι :=
  if s.pending a.1 = [] then some a.1 else none

/-- A step is one of the system with locks, or leaves it as it is. -/
theorem system_step {a : ι × List UInt8} (hs : s.step a = some s') :
    (s.lockLabel a).elim (s'.system = s.system) fun i => s.system.step i = some s'.system := by
  unfold lockLabel
  cases step_cases hs with
  | write t b rest ht hb =>
    rw [if_neg (by simp [hb])]
    rfl
  | move t v p ht hb hstep =>
    rw [if_pos hb]
    exact LockSystem.step_of_lockStep ht hstep

/-- **The lines printed under a client's lock are whole.** Every run of threads that print is a run
of threads with locks, and in every state of it what was written under a client's lock are the lines
for the messages received under it, in their order, and the first part of the line that the holder
of the lock is printing; with response times from the labels of the run. -/
theorem whole_lines {clients : κ → Client ι} {jobs : ι → Option (Job κ)}
    {as : List (ι × List UInt8)} (h : exec step (init clients jobs) as = some s) :
    exec LockSystem.step (.init clients jobs) (events step lockLabel (init clients jobs) as) =
        some s.system ∧
      ∀ k, ∃ times, Covers (as.map Prod.snd) s k times := by
  constructor
  · exact exec_events (I := fun _ => True) (π := PrintSystem.system) (fun _ _ => trivial)
      (fun _ hs => system_step hs) trivial h
  · have hinit : Whole (as.map Prod.snd) (init clients jobs) :=
      ⟨LockSystem.lockInv_init clients jobs, fun k => ⟨[], covers_init _ clients jobs k⟩⟩
    have hlabels : Along step (fun _ a => a.2 ∈ as.map Prod.snd) (init clients jobs) as := by
      refine along_of_at_step ?_
      rintro bs a cs t rfl -
      simp
    exact (hlabels.inv whole_step hinit h).covers

/-- A Premium client with one credit, and its two threads. -/
def sampleClients : Unit → Client Bool := fun _ => ⟨3, .premium, 1, []⟩

def sampleStart : PrintSystem Bool Unit :=
  init sampleClients fun _ => some (Job.letterJob 97 97)

/-- One thread consumes the credit and is printing its result when the other one is refused. -/
def sampleLabels : List (Bool × List UInt8) :=
  List.replicate 43 (false, literal "0.25") ++ List.replicate 20 (true, [])

def samplePrinting : PrintSystem Bool Unit :=
  (exec step sampleStart sampleLabels).get (by decide +kernel)

theorem whole_lines_sample :
    exec LockSystem.step (.init sampleClients fun _ => some (Job.letterJob 97 97))
        (events step lockLabel sampleStart sampleLabels) = some samplePrinting.system ∧
      ∀ k, ∃ times, Covers (sampleLabels.map Prod.snd) samplePrinting k times := by
  have hrun : exec step sampleStart sampleLabels = some samplePrinting := (Option.some_get _).symm
  exact whole_lines hrun

/-- A Standard client without credit, and its two threads. -/
def mixedStart : PrintSystem Bool Unit :=
  init (fun _ => ⟨12, .standard, Client.notUsingCredit, []⟩)
    fun _ => some (Job.letterJob 97 97)

/-- Both threads find no credit, and print their requests at the same time. -/
def mixedSched : List (Bool × List UInt8) :=
  [(false, []), (true, [])] ++ List.replicate 20 (false, []) ++ List.replicate 20 (true, []) ++
    List.replicate 24 (false, []) ++ List.replicate 25 (true, []) ++ [(false, [])]

/-- What `NotEnoughCreditMessage` prints is not kept together. -/
example : (exec step mixedStart mixedSched).map (fun s => s.out.map fun w => w.byte.2) =
    some (literal ("Client(12, Standard)Client(12, Standard): requesting more credit" ++
      ": requesting more credit\n\n")) := by
  decide +kernel

end PrintSystem

end MTFind2

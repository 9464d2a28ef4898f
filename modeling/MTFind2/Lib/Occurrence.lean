import Mathlib.Data.List.Infix
import Mathlib.Data.List.Nodup
import Mathlib.Data.List.Sort

/-!
# Occurrences of a word in a list

* `At q l p`: the word `q` occurs in `l` at position `p`.
* `firstFrom`, `lastUpto`: the first occurrence from a position on, the last one
  up to a position.
* `Selects q l n ps`: `ps` are the leftmost non-overlapping occurrences of `q` in
  `l` from position `n` on. `Selects.unique`: there is at most one such list;
  `exists_selects`: for a non-empty word there is one.
* `positions`: that list, computed. `positions_eq_nil_iff`: it is empty exactly if the
  word is no part (`<:+:`) of the list.
* `infix_append_cons`, `infix_of_mem_splitOn`: a word without the separator is a part of
  the whole if it is one of a piece.
* `Cover q l G`: a set of separated occurrences such that every occurrence starts
  inside one of them. `selects_eq_iff`: two searches select the same positions
  exactly if one set covers both.
-/

namespace Occurrence

variable {α : Type*} {q l : List α} {n p : ℕ}

/-- The word `q` occurs in `l` at position `p`. -/
def At (q l : List α) (p : ℕ) : Prop := p ≤ l.length ∧ q <+: l.drop p

instance [DecidableEq α] (q l : List α) (p : ℕ) : Decidable (At q l p) :=
  inferInstanceAs (Decidable (_ ∧ _))

theorem At.le (h : At q l p) : p + q.length ≤ l.length := by
  have := h.2.length_le
  rw [List.length_drop] at this
  have := h.1
  omega

theorem at_nil : At [] l p ↔ p ≤ l.length := by simp [At]

/-- A word of one letter occurs where the letter is. -/
theorem at_singleton {a : α} : At [a] l p ↔ l[p]? = some a := by
  constructor
  · rintro ⟨-, hpre⟩
    obtain ⟨t, ht⟩ := hpre
    rw [← List.head?_drop, ← ht]
    rfl
  · intro h
    obtain ⟨hp, ha⟩ := List.getElem?_eq_some_iff.1 h
    refine ⟨hp.le, ?_⟩
    rw [List.drop_eq_getElem_cons hp, ha]
    exact ⟨l.drop (p + 1), rfl⟩

theorem At.lt (hq : q ≠ []) (h : At q l p) : p < l.length := by
  have := h.le
  have := List.length_pos_of_ne_nil hq
  omega

/-- A word without the separator occurs on one side of it. -/
theorem infix_append_cons {a : α} {m : List α} (ha : a ∉ q) :
    q <:+: l ++ a :: m ↔ q <:+: l ∨ q <:+: m := by
  rw [List.infix_append_iff, List.infix_cons_iff]
  constructor
  · rintro (h | (h | h) | ⟨t₁, t₂, rfl, h₁, h₂⟩)
    · exact .inl h
    · rcases List.prefix_cons_iff.1 h with rfl | ⟨t, rfl, -⟩
      · exact .inl (List.nil_infix)
      · exact absurd List.mem_cons_self ha
    · exact .inr h
    · rcases List.prefix_cons_iff.1 h₂ with rfl | ⟨t, rfl, -⟩
      · rw [List.append_nil]
        exact .inl h₁.isInfix
      · exact absurd (List.mem_append_right _ List.mem_cons_self) ha
  · rintro (h | h)
    · exact .inl h
    · exact .inr (.inl (.inr h))

/-- A piece of a split list occurs in it. -/
theorem infix_of_mem_splitOn [BEq α] [LawfulBEq α] {a : α} (h : q ∈ l.splitOn a) : q <:+: l := by
  have hparts : ∀ parts : List (List α), q ∈ parts → q <:+: [a].intercalate parts := by
    intro parts hq
    induction parts with
    | nil => cases hq
    | cons part parts ih =>
      cases parts with
      | nil =>
        rw [List.mem_singleton.1 hq, List.intercalate_singleton]
      | cons next parts =>
        rw [List.intercalate_cons_cons]
        rcases List.mem_cons.1 hq with rfl | hq
        · exact ⟨[], [a] ++ [a].intercalate (next :: parts), by simp⟩
        · exact (ih hq).trans (List.suffix_append _ _).isInfix
  have hsplit := hparts (l.splitOn a) h
  rwa [List.intercalate_splitOn] at hsplit

/-- A word occurs somewhere exactly if it is a part of the list. -/
theorem exists_at_iff : (∃ p, At q l p) ↔ q <:+: l := by
  rw [List.infix_iff_prefix_suffix]
  constructor
  · rintro ⟨p, -, hpre⟩
    exact ⟨l.drop p, hpre, List.drop_suffix p l⟩
  · rintro ⟨t, hpre, hsuf⟩
    obtain ⟨s, rfl⟩ := hsuf
    exact ⟨s.length, by simp, by simpa using hpre⟩

/-- **The leftmost non-overlapping occurrences** of `q` in `l` from `n` on. -/
inductive Selects (q l : List α) : ℕ → List ℕ → Prop
  | done {n : ℕ} : (∀ p, n ≤ p → ¬ At q l p) → Selects q l n []
  | next {n p : ℕ} {ps : List ℕ} : n ≤ p → At q l p → (∀ p', n ≤ p' → p' < p → ¬ At q l p') →
      Selects q l (p + q.length) ps → Selects q l n (p :: ps)

theorem Selects.unique {ps ps' : List ℕ} (h : Selects q l n ps) (h' : Selects q l n ps') :
    ps = ps' := by
  induction h generalizing ps' with
  | done h0 =>
    cases h' with
    | done => rfl
    | next hn hp => exact absurd hp (h0 _ hn)
  | @next n p ps hn hp hmin _ ih =>
    cases h' with
    | done h0 => exact absurd hp (h0 _ hn)
    | @next _ p' ps' hn' hp' hmin' hs' =>
      have heq : p = p' := by
        rcases Nat.lt_trichotomy p p' with h | h | h
        · exact absurd hp (hmin' p hn h)
        · exact h
        · exact absurd hp' (hmin p' hn' h)
      subst heq
      rw [ih hs']

theorem Selects.at {ps : List ℕ} (h : Selects q l n ps) : ∀ p ∈ ps, n ≤ p ∧ At q l p := by
  induction h with
  | done => simp
  | next hn hp _ _ ih =>
    intro x hx
    rcases List.mem_cons.1 hx with rfl | hx
    · exact ⟨hn, hp⟩
    · have := ih x hx
      exact ⟨by omega, this.2⟩

/-- Selected positions are at least a word apart, in increasing order. -/
theorem Selects.separated {ps : List ℕ} (h : Selects q l n ps) :
    ps.Pairwise fun a b => a + q.length ≤ b := by
  induction h with
  | done => exact .nil
  | next _ _ _ hs ih => exact .cons (fun b hb => (hs.at b hb).1) ih

/-- Every occurrence starts inside a selected one. -/
theorem Selects.covers {ps : List ℕ} (h : Selects q l n ps) :
    ∀ x, n ≤ x → At q l x → ∃ p ∈ ps, p ≤ x ∧ x < p + q.length := by
  induction h with
  | done h0 => exact fun x hn hx => absurd hx (h0 x hn)
  | @next n p ps hn hp hmin _ ih =>
    intro x hx hat
    by_cases h1 : x < p
    · exact absurd hat (hmin x hx h1)
    · by_cases h2 : x < p + q.length
      · exact ⟨p, List.mem_cons_self, by omega, h2⟩
      · obtain ⟨p', hm, h⟩ := ih x (by omega) hat
        exact ⟨p', List.mem_cons_of_mem _ hm, h⟩

/-- `G` is a set of occurrences of `q` in `l`, at least a word apart, and every
occurrence of `q` starts inside one of them. -/
structure Cover (q l : List α) (G : Set ℕ) : Prop where
  at' : ∀ g ∈ G, At q l g
  apart : ∀ g ∈ G, ∀ g' ∈ G, g < g' → g + q.length ≤ g'
  all : ∀ x, At q l x → ∃ g ∈ G, g ≤ x ∧ x < g + q.length

theorem Selects.cover {ps : List ℕ} (h : Selects q l 0 ps) : Cover q l {p | p ∈ ps} where
  at' g hg := (h.at g hg).2
  apart g hg g' hg' hlt := by
    obtain ⟨i, hi, rfl⟩ := List.getElem_of_mem hg
    obtain ⟨j, hj, rfl⟩ := List.getElem_of_mem hg'
    have hs := List.pairwise_iff_getElem.1 h.separated
    rcases Nat.lt_trichotomy i j with hij | rfl | hij
    · exact hs i j hi hj hij
    · omega
    · have := hs j i hj hi hij
      omega
  all x hx := h.covers x (Nat.zero_le _) hx

/-- A cover from `n` on is the selection from `n` on: by induction on the
selection, the first selected position is the first element of the cover. -/
theorem Selects.mem_iff {ps : List ℕ} (h : Selects q l n ps) {G : Set ℕ}
    (hat : ∀ g ∈ G, n ≤ g → At q l g)
    (hap : ∀ g ∈ G, n ≤ g → ∀ g' ∈ G, g < g' → g + q.length ≤ g')
    (hall : ∀ x, n ≤ x → At q l x → ∃ g ∈ G, n ≤ g ∧ g ≤ x ∧ x < g + q.length) :
    ∀ g, n ≤ g → (g ∈ G ↔ g ∈ ps) := by
  induction h with
  | done h0 =>
    intro g hg
    simp only [List.not_mem_nil, iff_false]
    exact fun hG => h0 g hg (hat g hG hg)
  | @next n p ps hn hp hmin hs ih =>
    -- the element of the cover that `p` starts in is `p` itself
    have hpG : p ∈ G := by
      obtain ⟨g, hg, h1, h2, -⟩ := hall p hn hp
      rcases Nat.eq_or_lt_of_le h2 with h | h
      · exact h ▸ hg
      · exact absurd (hat g hg h1) (hmin g h1 h)
    have hrest := ih (fun g hg hng => hat g hg (by omega))
      (fun g hg hng g' hg' hlt => hap g hg (by omega) g' hg' hlt)
      (by
        intro x hx hxat
        obtain ⟨g, hg, h1, h2, h3⟩ := hall x (by omega) hxat
        refine ⟨g, hg, ?_, h2, h3⟩
        rcases Nat.lt_trichotomy g p with h | h | h
        · exact absurd (hat g hg h1) (hmin g h1 h)
        · omega
        · exact hap p hpG hn g hg h)
    intro g hg
    rw [List.mem_cons]
    rcases Nat.lt_or_ge g (p + q.length) with hlt | hge
    · constructor
      · intro hG
        rcases Nat.lt_trichotomy g p with h | h | h
        · exact absurd (hat g hG hg) (hmin g hg h)
        · exact .inl h
        · have := hap p hpG hn g hG h
          omega
      · rintro (rfl | h)
        · exact hpG
        · have := (hs.at g h).1
          omega
    · rw [hrest g hge]
      constructor
      · exact .inr
      · rintro (rfl | h)
        · exact (hrest _ hge).1 hpG
        · exact h

theorem Selects.mem_of_cover {ps : List ℕ} (h : Selects q l 0 ps) {G : Set ℕ} (hG : Cover q l G)
    (g : ℕ) : g ∈ G ↔ g ∈ ps :=
  h.mem_iff (fun g hg _ => hG.at' g hg) (fun g hg _ g' hg' hlt => hG.apart g hg g' hg' hlt)
    (fun x _ hx => by obtain ⟨g, hg, h1⟩ := hG.all x hx; exact ⟨g, hg, Nat.zero_le _, h1⟩) g
    (Nat.zero_le _)

/-- Selected positions are listed in strictly increasing order. -/
theorem Selects.sorted (hq : q ≠ []) {ps : List ℕ} (h : Selects q l n ps) :
    ps.Pairwise (· < ·) := by
  have := List.length_pos_of_ne_nil hq
  exact h.separated.imp (by intro a b hab; omega)

/-- **Two searches select the same positions exactly if one set covers both.** -/
theorem selects_eq_iff {q' l' : List α} (hq : q ≠ []) (hq' : q' ≠ []) {ps ps' : List ℕ}
    (h : Selects q l 0 ps) (h' : Selects q' l' 0 ps') :
    ps = ps' ↔ ∃ G, Cover q l G ∧ Cover q' l' G := by
  constructor
  · rintro rfl
    exact ⟨_, h.cover, h'.cover⟩
  · rintro ⟨G, hG, hG'⟩
    have hmem : ∀ x, x ∈ ps ↔ x ∈ ps' := fun x =>
      (h.mem_of_cover hG x).symm.trans (h'.mem_of_cover hG' x)
    have hs := h.sorted hq
    have hs' := h'.sorted hq'
    have hperm : ps.Perm ps' :=
      (List.perm_ext_iff_of_nodup (hs.imp ne_of_lt) (hs'.imp ne_of_lt)).2 hmem
    exact hperm.eq_of_pairwise (fun a b _ _ hab hba => absurd hab (not_lt.2 hba.le)) hs hs'

/-! ## Searching -/

variable [DecidableEq α]

/-- The first occurrence of `q` in `l` from position `n` on. -/
def firstFrom (q l : List α) (n : ℕ) : Option ℕ :=
  (List.range (l.length + 1)).find? fun p => decide (n ≤ p ∧ At q l p)

/-- The last occurrence of `q` in `l` up to position `n`. -/
def lastUpto (q l : List α) (n : ℕ) : Option ℕ :=
  (List.range (l.length + 1)).reverse.find? fun p => decide (p ≤ n ∧ At q l p)

theorem firstFrom_eq_some :
    firstFrom q l n = some p ↔ n ≤ p ∧ At q l p ∧ ∀ p', n ≤ p' → p' < p → ¬ At q l p' := by
  unfold firstFrom
  rw [List.find?_range_eq_some]
  simp only [decide_eq_true_eq, List.mem_range, Bool.not_eq_true', decide_eq_false_iff_not, not_and]
  constructor
  · rintro ⟨⟨h1, h2⟩, -, h4⟩
    exact ⟨h1, h2, fun p' hn hp => h4 p' hp hn⟩
  · rintro ⟨h1, h2, h3⟩
    exact ⟨⟨h1, h2⟩, by have := h2.1; omega, fun p' hp hn => h3 p' hn hp⟩

theorem firstFrom_eq_none : firstFrom q l n = none ↔ ∀ p, n ≤ p → ¬ At q l p := by
  unfold firstFrom
  rw [List.find?_eq_none]
  simp only [List.mem_range, decide_eq_true_eq, not_and]
  constructor
  · intro h p hn hp
    exact h p (by have := hp.1; omega) hn hp
  · intro h p _ hn
    exact h p hn

/-- The empty word occurs wherever the search starts. -/
theorem firstFrom_nil (h : n ≤ l.length) : firstFrom [] l n = some n :=
  firstFrom_eq_some.2 ⟨le_rfl, at_nil.2 h, fun p' h1 h2 => by omega⟩

theorem lastUpto_eq_none : lastUpto q l n = none ↔ ∀ p, p ≤ n → ¬ At q l p := by
  unfold lastUpto
  rw [List.find?_eq_none]
  simp only [List.mem_reverse, List.mem_range, decide_eq_true_eq, not_and]
  constructor
  · intro h p hn hp
    have := hp.1
    exact h p (by omega) hn hp
  · intro h p _ hn
    exact h p hn

theorem lastUpto_eq_some :
    lastUpto q l n = some p ↔ p ≤ n ∧ At q l p ∧ ∀ p', p < p' → p' ≤ n → ¬ At q l p' := by
  unfold lastUpto
  rw [List.find?_eq_some_iff_append]
  simp only [decide_eq_true_eq, Bool.not_eq_true', decide_eq_false_iff_not, not_and]
  -- the positions are tried in decreasing order
  have hdec : ((List.range (l.length + 1)).reverse).Pairwise fun a b => b < a :=
    List.pairwise_reverse.2 List.pairwise_lt_range
  constructor
  · rintro ⟨⟨hn, hp⟩, as, bs, heq, has⟩
    refine ⟨hn, hp, ?_⟩
    intro p' hlt hn' hp'
    have hmem : p' ∈ (List.range (l.length + 1)).reverse := by
      have := hp'.1
      simp
      omega
    rw [heq] at hmem hdec
    rcases List.mem_append.1 hmem with hmem | hmem
    · exact has p' hmem hn' hp'
    · have hle : p' ≤ p := by
        rcases List.mem_cons.1 hmem with rfl | hmem
        · exact le_rfl
        · have hbs := (List.pairwise_append.1 hdec).2.1
          exact ((List.pairwise_cons.1 hbs).1 p' hmem).le
      omega
  · rintro ⟨hn, hp, hmax⟩
    have hmem : p ∈ (List.range (l.length + 1)).reverse := by
      have := hp.1
      simp
      omega
    obtain ⟨as, bs, heq⟩ := List.append_of_mem hmem
    refine ⟨⟨hn, hp⟩, as, bs, heq, ?_⟩
    intro a ha hna
    rw [heq] at hdec
    have hlt := (List.pairwise_append.1 hdec).2.2 a ha p List.mem_cons_self
    exact hmax a hlt hna

theorem lastUpto_some (h : lastUpto q l n = some p) : p ≤ n ∧ At q l p := by
  obtain ⟨hn, hp, -⟩ := lastUpto_eq_some.1 h
  exact ⟨hn, hp⟩

/-- A selection is what repeated `firstFrom` finds. -/
theorem selects_nil_iff : Selects q l n [] ↔ firstFrom q l n = none := by
  rw [firstFrom_eq_none]
  exact ⟨fun h => by cases h with | done h => exact h, .done⟩

theorem selects_cons_iff {ps : List ℕ} :
    Selects q l n (p :: ps) ↔ firstFrom q l n = some p ∧ Selects q l (p + q.length) ps := by
  rw [firstFrom_eq_some]
  constructor
  · intro h
    cases h with
    | next h1 h2 h3 h4 => exact ⟨⟨h1, h2, h3⟩, h4⟩
  · rintro ⟨⟨h1, h2, h3⟩, h4⟩
    exact .next h1 h2 h3 h4

/-- **A non-empty word has a selection**: each match moves the search forward. -/
theorem exists_selects (hq : q ≠ []) (l : List α) (n : ℕ) : ∃ ps, Selects q l n ps := by
  -- strong induction on what is left of the list
  induction hk : l.length - n using Nat.strong_induction_on generalizing n with
  | _ k ih =>
    cases hf : firstFrom q l n with
    | none => exact ⟨[], selects_nil_iff.2 hf⟩
    | some p =>
      obtain ⟨hn, hp, -⟩ := firstFrom_eq_some.1 hf
      have h1 := hp.lt hq
      have h2 := List.length_pos_of_ne_nil hq
      obtain ⟨ps, hps⟩ := ih (l.length - (p + q.length)) (by omega) (p + q.length) rfl
      exact ⟨p :: ps, selects_cons_iff.2 ⟨hf, hps⟩⟩

/-- The selection from `n` on, by `fuel` searches. -/
def select (q l : List α) : ℕ → ℕ → List ℕ
  | 0, _ => []
  | fuel + 1, n =>
    match firstFrom q l n with
    | none => []
    | some p => p :: select q l fuel (p + q.length)

/-- As many searches as letters left are enough. -/
theorem selects_select (hq : q ≠ []) (fuel : ℕ) (hfuel : l.length < n + fuel) :
    Selects q l n (select q l fuel n) := by
  induction fuel generalizing n with
  | zero =>
    refine .done ?_
    intro p hp hat
    have := hat.1
    omega
  | succ fuel ih =>
    unfold select
    cases hf : firstFrom q l n with
    | none => exact selects_nil_iff.2 hf
    | some p =>
      have hle := (firstFrom_eq_some.1 hf).1
      have hpos := List.length_pos_of_ne_nil hq
      exact selects_cons_iff.2 ⟨hf, ih (by omega)⟩

/-- All the leftmost non-overlapping occurrences of `q` in `l`. -/
def positions (q l : List α) : List ℕ := select q l (l.length + 1) 0

theorem selects_positions (hq : q ≠ []) (l : List α) : Selects q l 0 (positions q l) :=
  selects_select hq _ (by omega)

/-- Nothing is selected exactly if the word does not occur. -/
theorem positions_eq_nil_iff (hq : q ≠ []) : positions q l = [] ↔ ¬ q <:+: l := by
  have hselects := selects_positions hq l
  rw [← exists_at_iff, not_exists]
  constructor
  · intro h p
    rw [h, selects_nil_iff, firstFrom_eq_none] at hselects
    exact hselects p (Nat.zero_le p)
  · intro h
    exact List.eq_nil_iff_forall_not_mem.2 fun p hp => h p (hselects.at p hp).2

end Occurrence

import Thumb.Proofs.Arithmetic

namespace Thumb

/-- The number that words are, the least significant one first. -/
def ofWords (ws : List Word) : Nat :=
  Nat.ofDigits (2 ^ 32) (ws.map (·.toNat))

/-- The number with sign that words are, in two's complement over all their bits. -/
def ofWordsSigned (ws : List Word) : Int :=
  Int.bmod (ofWords ws) (2 ^ (32 * ws.length))

def FitsSigned (bits : Nat) (i : Int) : Prop :=
  -2 ^ (bits - 1) ≤ i ∧ i < 2 ^ (bits - 1)

theorem ofWords_cons (w : Word) (ws : List Word) :
    ofWords (w :: ws) = w.toNat + 2 ^ 32 * ofWords ws := by
  rw [ofWords, List.map_cons, Nat.ofDigits_cons]
  rfl

theorem ofWords_lt (ws : List Word) : ofWords ws < 2 ^ (32 * ws.length) := by
  rw [pow_mul, ← List.length_map (f := fun w : Word => w.toNat)]
  apply Nat.ofDigits_lt_base_pow_length (by decide)
  intro n hn
  obtain ⟨w, _, rfl⟩ := List.mem_map.mp hn
  exact w.isLt

def topWeight (n : Nat) : Nat :=
  2 ^ (32 * n - 1)

theorem pow_eq_two_mul_topWeight (n : Nat) : 2 ^ (32 * (n + 1)) = 2 * topWeight (n + 1) := by
  rw [topWeight, ← pow_succ']
  congr 1

theorem topWeight_succ (n : Nat) : topWeight (n + 1 + 1) = 2 ^ 32 * topWeight (n + 1) := by
  rw [topWeight, topWeight, ← pow_add]
  congr 1
  omega

theorem fitsSigned_iff (n : Nat) (i : Int) :
    FitsSigned (32 * n) i ↔ -(topWeight n : Int) ≤ i ∧ i < topWeight n := by
  rw [FitsSigned, topWeight, Nat.cast_pow]
  rfl

theorem ofWordsSigned_eq {ws : List Word} {n : Nat} (h : ws.length = n + 1) :
    ofWordsSigned ws =
      if ofWords ws < topWeight (n + 1) then (ofWords ws : Int)
      else ofWords ws - 2 * topWeight (n + 1) := by
  have hlt := ofWords_lt ws
  rw [h, pow_eq_two_mul_topWeight] at hlt
  rw [ofWordsSigned, h, pow_eq_two_mul_topWeight, Int.bmod_def,
    Int.emod_eq_of_lt (by omega) (by omega)]
  split_ifs <;> omega

theorem ofWordsSigned_singleton (w : Word) : ofWordsSigned [w] = w.toInt := by
  rw [BitVec.toInt_eq_toNat_bmod, ofWordsSigned, ofWords_cons]
  rfl

/-- Only the most significant word has a sign. -/
theorem ofWordsSigned_cons (w : Word) {ws : List Word} (hne : ws ≠ []) :
    ofWordsSigned (w :: ws) = w.toNat + 2 ^ 32 * ofWordsSigned ws := by
  obtain ⟨n, hn⟩ := Nat.exists_eq_succ_of_ne_zero (mt List.length_eq_zero_iff.mp hne)
  have hcons : (w :: ws).length = n + 1 + 1 := by rw [List.length_cons, hn]
  have hw := w.isLt
  rw [ofWordsSigned_eq hcons, ofWordsSigned_eq hn, ofWords_cons, topWeight_succ]
  split_ifs <;> push_cast <;> omega

theorem fitsSigned_cons {n low : Nat} (hlow : low < 2 ^ 32) (high : Int) :
    FitsSigned (32 * (n + 1 + 1)) (low + 2 ^ 32 * high) ↔ FitsSigned (32 * (n + 1)) high := by
  rw [fitsSigned_iff, fitsSigned_iff, topWeight_succ]
  push_cast
  omega

theorem ofWords_complement (ws : List Word) :
    ofWords (ws.map (~~~·)) + ofWords ws + 1 = 2 ^ (32 * ws.length) := by
  induction ws with
  | nil => rfl
  | cons w ws ih =>
    have hw := w.isLt
    rw [List.map_cons, ofWords_cons, ofWords_cons, List.length_cons, Nat.mul_succ, pow_add, ← ih,
      BitVec.toNat_not]
    omega

theorem ofWordsSigned_complement {ws : List Word} (hne : ws ≠ []) :
    ofWordsSigned (ws.map (~~~·)) = -ofWordsSigned ws - 1 := by
  obtain ⟨n, hn⟩ := Nat.exists_eq_succ_of_ne_zero (mt List.length_eq_zero_iff.mp hne)
  have hsum := ofWords_complement ws
  rw [hn, pow_eq_two_mul_topWeight] at hsum
  rw [ofWordsSigned_eq (n := n) (by rw [List.length_map, hn]), ofWordsSigned_eq hn]
  split_ifs <;> omega

namespace Alu

/-- The results of operations on pairs of words, each of which takes the carry of the one before. -/
def carried (op : Word → Word → Bool → Result) (carry : Bool) : List (Word × Word) → List Result
  | [] => []
  | (a, b) :: rest => op a b carry :: carried op (op a b carry).c rest

def chain (first : Word → Word → Result) (next : Word → Word → Bool → Result) :
    List (Word × Word) → List Result
  | [] => []
  | (a, b) :: rest => first a b :: carried next (first a b).c rest

theorem chain_eq_carried {first : Word → Word → Result} {next : Word → Word → Bool → Result}
    {carry : Bool} (h : ∀ a b, first a b = next a b carry) (pairs : List (Word × Word)) :
    chain first next pairs = carried next carry pairs := by
  cases pairs with
  | nil => rfl
  | cons pair rest => rw [chain, carried, h]

theorem carried_sbc (carry : Bool) (pairs : List (Word × Word)) :
    carried sbc carry pairs = carried adc carry (pairs.map fun p => (p.1, ~~~p.2)) := by
  induction pairs generalizing carry with
  | nil => rfl
  | cons pair rest ih => rw [carried, List.map_cons, carried, ih, sbc_eq_adc]

/-- The results of a chain on so many words are the words of an exact result, and the last one tells
whether it carries and whether it overflows. -/
structure Computes (rs : List Result) (n : Nat) (value : Int) (carry overflow : Prop) : Prop where
  length : rs.length = n
  value : (ofWords (rs.map (·.value)) : Int) = value % 2 ^ (32 * n)
  last : ∃ r, rs.getLast? = some r ∧ (r.c = true ↔ carry) ∧ (r.v = true ↔ overflow)

theorem length_carried (op : Word → Word → Bool → Result) (carry : Bool)
    (pairs : List (Word × Word)) : (carried op carry pairs).length = pairs.length := by
  induction pairs generalizing carry with
  | nil => rfl
  | cons pair rest ih => rw [carried, List.length_cons, List.length_cons, ih]

theorem toNat_adc (a b : Word) (carry : Bool) :
    (adc a b carry).value.toNat + 2 ^ 32 * (adc a b carry).c.toNat =
      a.toNat + b.toNat + carry.toNat := by
  have ha := a.isLt
  have hb := b.isLt
  have hle := carry.toNat_le
  simp only [adc, nz, BitVec.toNat_ofNat]
  by_cases hcarry : 0x100000000 ≤ a.toNat + b.toNat + carry.toNat
  · simp only [hcarry, decide_true, Bool.toNat_true]
    omega
  · simp only [hcarry, decide_false, Bool.toNat_false]
    omega

theorem overflow_adc (a b : Word) (carry : Bool) :
    (adc a b carry).v = true ↔ ¬FitsSigned 32 (a.toInt + b.toInt + carry.toNat) := by
  have hv : (adc a b carry).v = Exact.overflows (a.toInt + b.toInt + carry.toNat) :=
    overflow_sum carry.toNat_le (BitVec.toNat_ofNat ..)
  rw [hv, Exact.overflows, FitsSigned, Bool.or_eq_true, decide_eq_true_eq, decide_eq_true_eq]
  omega

/-- A chain of additions, whatever carry it starts with: the words and the last carry are the whole
sum, and the last overflow is that of the sum with sign. -/
theorem carried_adc {as bs : List Word} (hlength : as.length = bs.length) (hne : as ≠ [])
    (carry : Bool) :
    ∃ r, (carried adc carry (as.zip bs)).getLast? = some r ∧
      ofWords ((carried adc carry (as.zip bs)).map (·.value)) + 2 ^ (32 * as.length) * r.c.toNat =
        ofWords as + ofWords bs + carry.toNat ∧
      (r.v = true ↔
        ¬FitsSigned (32 * as.length) (ofWordsSigned as + ofWordsSigned bs + carry.toNat)) := by
  -- The carry of each word goes into the next, so the induction is over every carry.
  induction as generalizing bs carry with
  | nil => exact (hne rfl).elim
  | cons a as ih =>
    obtain ⟨b, bs, rfl⟩ := List.exists_cons_of_length_eq_add_one hlength.symm
    have hlength : as.length = bs.length := Nat.succ.inj hlength
    have hsum := toNat_adc a b carry
    have hlow := (adc a b carry).value.isLt
    rw [List.zip_cons_cons, carried, List.map_cons, ofWords_cons, ofWords_cons, ofWords_cons,
      List.length_cons]
    cases as with
    | nil =>
      obtain rfl : bs = [] := List.eq_nil_of_length_eq_zero hlength.symm
      rw [ofWordsSigned_singleton, ofWordsSigned_singleton]
      refine ⟨adc a b carry, rfl, ?_, overflow_adc a b carry⟩
      simpa [carried, ofWords] using hsum
    | cons a' as =>
      have hbs : bs ≠ [] := List.ne_nil_of_length_eq_add_one hlength.symm
      obtain ⟨r, hlast, hvalue, hoverflow⟩ :=
        ih hlength (List.cons_ne_nil _ _) (adc a b carry).c
      refine ⟨r, ?_, ?_, ?_⟩
      · rw [List.getLast?_cons, hlast]
        rfl
      · rw [Nat.mul_succ, pow_add, Nat.mul_right_comm]
        omega
      · have hsigned : ofWordsSigned (a :: a' :: as) + ofWordsSigned (b :: bs) + carry.toNat =
            (adc a b carry).value.toNat + 2 ^ 32 *
              (ofWordsSigned (a' :: as) + ofWordsSigned bs + (adc a b carry).c.toNat) := by
          rw [ofWordsSigned_cons a (List.cons_ne_nil _ _), ofWordsSigned_cons b hbs]
          omega
        rw [hoverflow, hsigned, List.length_cons, fitsSigned_cons hlow]

theorem Computes.congr {rs : List Result} {n : Nat} {value value' : Int}
    {carry carry' overflow overflow' : Prop} (h : Computes rs n value carry overflow)
    (hvalue : value % 2 ^ (32 * n) = value' % 2 ^ (32 * n)) (hcarry : carry ↔ carry')
    (hoverflow : overflow ↔ overflow') : Computes rs n value' carry' overflow' := by
  obtain ⟨r, hlast, hc, hv⟩ := h.last
  exact ⟨h.length, h.value.trans hvalue, r, hlast, hc.trans hcarry, hv.trans hoverflow⟩

theorem computes_carried {as bs : List Word} (hlength : as.length = bs.length) (hne : as ≠ [])
    (carry : Bool) :
    Computes (carried adc carry (as.zip bs)) as.length (ofWords as + ofWords bs + carry.toNat)
      (2 ^ (32 * as.length) ≤ ofWords as + ofWords bs + carry.toNat)
      (¬FitsSigned (32 * as.length) (ofWordsSigned as + ofWordsSigned bs + carry.toNat)) := by
  have hcount : (carried adc carry (as.zip bs)).length = as.length := by
    rw [length_carried, List.length_zip, ← hlength, Nat.min_self]
  have hlt := ofWords_lt ((carried adc carry (as.zip bs)).map (·.value))
  rw [List.length_map, hcount] at hlt
  obtain ⟨r, hlast, htotal, hoverflow⟩ := carried_adc hlength hne carry
  refine ⟨hcount, ?_, r, hlast, ?_, hoverflow⟩
  · have hmod := Nat.add_mul_mod_self_left
      (ofWords ((carried adc carry (as.zip bs)).map (·.value))) (2 ^ (32 * as.length)) r.c.toNat
    rw [htotal, Nat.mod_eq_of_lt hlt] at hmod
    rw [← hmod]
    push_cast
    rfl
  · rw [← htotal]
    cases r.c with
    | false => simpa using hlt
    | true => simp

/-- Chains of additions and of subtractions on numbers of at least one word. -/
theorem carry_chains (as bs : List Word) (hlength : as.length = bs.length) (hne : as ≠ []) :
    Computes (chain add adc (as.zip bs)) as.length (ofWords as + ofWords bs)
      (2 ^ (32 * as.length) ≤ ofWords as + ofWords bs)
      (¬FitsSigned (32 * as.length) (ofWordsSigned as + ofWordsSigned bs)) ∧
    Computes (chain sub sbc (as.zip bs)) as.length (ofWords as - ofWords bs)
      (ofWords bs ≤ ofWords as)
      (¬FitsSigned (32 * as.length) (ofWordsSigned as - ofWordsSigned bs)) := by
  constructor
  · have hfirst (a b : Word) : add a b = adc a b false := rfl
    rw [chain_eq_carried hfirst]
    simpa using computes_carried hlength hne false
  · have hbs : bs ≠ [] := by
      rintro rfl
      exact hne (List.eq_nil_of_length_eq_zero hlength)
    have hcomplement := ofWords_complement bs
    rw [← hlength] at hcomplement
    have hlength' : as.length = (bs.map (~~~·)).length := by rw [List.length_map, hlength]
    have hpairs : (as.zip bs).map (fun p => (p.1, ~~~p.2)) = as.zip (bs.map (~~~·)) :=
      List.zip_map_right.symm
    rw [chain_eq_carried sub_eq_sbc, carried_sbc, hpairs]
    apply (computes_carried hlength' hne true).congr
    · have hshift : (ofWords as + ofWords (bs.map (~~~·)) + true.toNat : Int) =
          ofWords as - ofWords bs + 2 ^ (32 * as.length) := by
        have hcast : (2 : Int) ^ (32 * as.length) = ((2 ^ (32 * as.length) : Nat) : Int) := by
          push_cast
          rfl
        rw [hcast, ← hcomplement, Bool.toNat_true]
        omega
      rw [hshift, Int.add_emod_right]
    · rw [← hcomplement, Bool.toNat_true]
      omega
    · have hsigned : ofWordsSigned as + ofWordsSigned (bs.map (~~~·)) + true.toNat =
          ofWordsSigned as - ofWordsSigned bs := by
        rw [ofWordsSigned_complement hbs, Bool.toNat_true]
        omega
      rw [hsigned]

/-- The least number of two words with sign, less one in the upper word: nothing is borrowed by a
zero, and the difference does not fit. -/
theorem carry_chains_least :
    let as : List Word := [0, 0x80000000]
    let bs : List Word := [0, 1]
    as.length = bs.length ∧ as ≠ [] ∧
    (chain sub sbc (as.zip bs)).map (fun r => (r.value, r.c, r.v)) =
      [(0, true, false), (0x7FFFFFFF, true, true)] ∧
    Computes (chain add adc (as.zip bs)) 2 (2 ^ 63 + 2 ^ 32) (2 ^ 64 ≤ 2 ^ 63 + 2 ^ 32)
      (¬FitsSigned 64 (-2 ^ 63 + 2 ^ 32)) ∧
    Computes (chain sub sbc (as.zip bs)) 2 (2 ^ 63 - 2 ^ 32) (2 ^ 32 ≤ 2 ^ 63)
      (¬FitsSigned 64 (-2 ^ 63 - 2 ^ 32)) := by
  intro as bs
  have hlength : as.length = bs.length := rfl
  have hne : as ≠ [] := by decide
  have ha : ofWords as = 2 ^ 63 ∧ ofWordsSigned as = -2 ^ 63 := by decide +kernel
  have hb : ofWords bs = 2 ^ 32 ∧ ofWordsSigned bs = 2 ^ 32 := by decide +kernel
  have hchains := carry_chains as bs hlength hne
  rw [ha.1, ha.2, hb.1, hb.2] at hchains
  exact ⟨hlength, hne, by decide, hchains⟩

end Alu

end Thumb

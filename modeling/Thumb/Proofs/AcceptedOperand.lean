import Thumb.Proofs.FormSelection
import Thumb.Proofs.Substitution

namespace Thumb

namespace Text

theorem digit?_of_signed? {base : Nat} {n : Int} {cs : List Char} (h : signed? base cs = some n) :
    ∀ c ∈ cs, c = '-' ∨ c = '+' ∨ (digit? base c).isSome = true := by
  unfold signed? at h
  split at h
  case h_1 digits =>
    obtain ⟨_, h, _⟩ := Option.map_eq_some_iff.mp h
    obtain ⟨m, hm, _⟩ := Option.bind_eq_some_iff.mp h
    intro c hc
    exact (List.mem_cons.mp hc).imp_right fun hc => .inr (digit?_of_natural? hm c hc)
  case h_2 =>
    obtain ⟨_, h, _⟩ := Option.map_eq_some_iff.mp h
    obtain ⟨m, hm, _⟩ := Option.bind_eq_some_iff.mp h
    intro c hc
    exact .inr (digit?_of_unsigned? hm c hc)

end Text

namespace Operand

/-- A character that stands in no number but between apostrophes. -/
structure NoDigit (c : Char) : Prop where
  blank : Text.isBlank c = false
  sign : c ≠ '-' ∧ c ≠ '+'
  mark : c ∉ ['0', 'x', 'X', 'b', 'B']
  digit : ∀ base ∈ [2, 10, 16], Text.digit? base c = none

theorem noDigit_dot : NoDigit '.' := by
  constructor <;> decide

theorem noDigit_dollar : NoDigit '$' := by
  constructor <;> decide

variable {c : Char} {op : String}

theorem quote_of_magnitude? (hc : NoDigit c) {cs : List Char} {i : Int}
    (h : magnitude? cs = some i) (hmem : c ∈ cs) : '\'' ∈ cs := by
  have hmark := hc.mark
  simp only [List.mem_cons, List.not_mem_nil, or_false, not_or] at hmark
  have hsigned {base : Nat} (hbase : base ∈ [2, 10, 16]) {digits : List Char} {j : Int}
      (hdigits : Text.signed? base digits = some j) : c ∉ digits := by
    intro hmem
    have hchar := Text.digit?_of_signed? hdigits c hmem
    simp [hc.sign, hc.digit base hbase] at hchar
  unfold magnitude? at h
  split at h
  case h_5 d => exact .head _
  case h_6 =>
    obtain ⟨_, h, _⟩ := Option.map_eq_some_iff.mp h
    obtain ⟨n, hn, _⟩ := Option.bind_eq_some_iff.mp h
    have hchar := Text.digit?_of_natural? hn c hmem
    simp [hc.digit 10 (by decide)] at hchar
  all_goals
    simp only [List.mem_cons, hmark, false_or] at hmem
    cases hsigned (by decide) h hmem

theorem quote_of_number? (hc : NoDigit c) {text : String} {i : Int} (h : number? text = some i)
    (hmem : c ∈ text.toList) : '\'' ∈ text.toList := by
  have hmem := Text.mem_trim hmem hc.blank
  apply Text.trim_subset text.toList
  unfold number? at h
  split at h
  case h_1 rest htrim =>
    rw [htrim] at hmem ⊢
    simp only [Option.map_eq_some_iff, Option.filter_eq_some_iff] at h
    obtain ⟨j, ⟨hj, _⟩, _⟩ := h
    have hrest := (List.mem_cons.mp hmem).resolve_left hc.sign.1
    have hstart : c ∈ Text.trimStart rest := by
      rw [Text.trimStart, ← List.count_pos_iff, Text.count_dropWhile hc.blank, List.count_pos_iff]
      exact hrest
    exact .tail _ ((List.dropWhile_sublist _).subset (quote_of_magnitude? hc hj hstart))
  case h_2 rest htrim =>
    rw [htrim] at hmem ⊢
    obtain ⟨hj, _⟩ := Option.filter_eq_some_iff.mp h
    exact .tail _ (quote_of_magnitude? hc hj ((List.mem_cons.mp hmem).resolve_left hc.sign.2))
  case h_3 =>
    obtain ⟨hj, _⟩ := Option.filter_eq_some_iff.mp h
    exact quote_of_magnitude? hc hj hmem

theorem mem_offset_of_address? {a : Address} (h : address? op = some a)
    (hc : c ∈ ['#', '=', '$', '.']) (hmem : c ∈ op.toList) :
    ∃ text, a.offset = .immediate text ∧ c ∈ text.toList ∧ text.toList ⊆ op.toList := by
  obtain ⟨hblank, hfirst, hlast, hcomma⟩ :
      Text.isBlank c = false ∧ c ≠ '[' ∧ c ≠ ']' ∧ c ≠ ',' := by
    simp only [List.mem_cons, List.not_mem_nil, or_false] at hc
    rcases hc with rfl | rfl | rfl | rfl <;> decide
  have hregister {cs : List Char} {r : Reg} (hr : Reg.ofChars? (Text.trim cs) = some r) :
      c ∉ cs := by
    rw [Reg.ofChars?_trim] at hr
    apply Reg.not_mem_of_ofChars? hr
    simp only [List.mem_cons, List.not_mem_nil, or_false] at hc ⊢
    tauto
  obtain ⟨inner, hinner, h⟩ := Option.bind_eq_some_iff.mp h
  have htext := eq_of_between? hinner
  have hmem : c ∈ inner := by
    have hmem := Text.mem_trim hmem hblank
    rw [htext] at hmem
    simpa [hfirst, hlast] using hmem
  have hjoin : [','].intercalate (inner.splitOn ',') = inner := List.intercalate_splitOn ','
  split at h
  case h_1 base hpieces =>
    obtain ⟨p, hsplit, rfl⟩ := List.map_eq_singleton_iff.mp hpieces
    obtain ⟨r, hr, _⟩ := Option.bind_eq_some_iff.mp h
    rw [← hjoin, hsplit, List.intercalate_singleton] at hmem
    cases hregister hr hmem
  case h_2 base offset hpieces =>
    obtain ⟨p, rest, hsplit, rfl, hrest⟩ := List.map_eq_cons_iff.mp hpieces
    obtain ⟨q, rfl, rfl⟩ := List.map_eq_singleton_iff.mp hrest
    obtain ⟨r, hr, h⟩ := Option.bind_eq_some_iff.mp h
    obtain ⟨off, hoffset, h⟩ := Option.bind_eq_some_iff.mp h
    cases h
    have hinner' : inner = p ++ ',' :: q := by
      rw [← hjoin, hsplit]
      simp [List.intercalate_cons_cons]
    rw [hinner', List.mem_append, List.mem_cons] at hmem
    have hq : c ∈ q := (hmem.resolve_left (hregister hr)).resolve_left hcomma
    unfold offset? at hoffset
    dsimp only at hoffset
    split at hoffset
    case isFalse =>
      obtain ⟨r', hr', _⟩ := Option.map_eq_some_iff.mp hoffset
      cases hregister hr' hq
    case isTrue =>
      cases hoffset
      refine ⟨_, rfl, ?_, ?_⟩
      · rw [String.toList_ofList]
        exact Text.mem_trim hq hblank
      · rw [String.toList_ofList]
        intro d hd
        apply Text.trim_subset op.toList
        rw [htext, hinner']
        simp [Text.trim_subset q hd]
  case h_3 => cases h

theorem mem_intercalate {separator : Char} (hne : c ≠ separator) {pieces : List (List Char)} :
    c ∈ [separator].intercalate pieces ↔ ∃ piece ∈ pieces, c ∈ piece := by
  induction pieces with
  | nil => simp
  | cons piece pieces ih =>
    cases pieces with
    | nil => simp
    | cons next pieces =>
      rw [List.intercalate_cons_cons, List.mem_append, List.mem_append, ih]
      simp [hne]

theorem not_mem_of_listItem? {cs : List Char} {rs : List Reg} (h : listItem? cs = some rs) :
    '#' ∉ cs := by
  have hregister {cs : List Char} {r : Reg} (hr : Reg.ofChars? cs = some r) : '#' ∉ cs :=
    Reg.not_mem_of_ofChars? hr (by decide)
  unfold listItem? at h
  simp only [Option.bind_eq_bind, Option.bind_eq_some_iff] at h
  obtain ⟨first, hfirst, last, hlast, _⟩ := h
  split at hfirst
  case h_1 => exact hregister hfirst
  case h_2 d rest hdrop =>
    rw [hdrop] at hlast
    rw [← List.takeWhile_append_dropWhile (p := (· != '-')) (l := cs), hdrop, List.mem_append,
      List.mem_cons, not_or, not_or]
    refine ⟨hregister hfirst, ?_, hregister hlast⟩
    rintro rfl
    have hdash := List.head?_dropWhile_not (· != '-') cs
    rw [hdrop] at hdash
    cases hdash

theorem exists_listItem? {done out : List Reg} {items : List (List Char)}
    (h : collectItems op done items = .ok out) :
    ∀ item ∈ items, ∃ rs, listItem? (Text.trim item) = some rs := by
  induction items generalizing done with
  | nil => exact nofun
  | cons item items ih =>
    unfold collectItems at h
    split at h
    case h_1 => cases h
    case h_2 rs hrs =>
      obtain ⟨next, _, h⟩ := bind_ok_iff.mp h
      exact List.forall_mem_cons.mpr ⟨⟨rs, hrs⟩, ih h⟩

theorem not_mem_of_registerList {rs : List Reg} (h : registerList op = .ok rs) :
    '#' ∉ op.toList := by
  unfold registerList at h
  split at h
  case h_1 => cases h
  case h_2 inner hinner =>
    intro hmem
    have hmem := Text.mem_trim hmem (by decide)
    have hjoin : [','].intercalate (inner.splitOn ',') = inner := List.intercalate_splitOn ','
    rw [eq_of_between? hinner, ← hjoin] at hmem
    have hmem : '#' ∈ [','].intercalate (inner.splitOn ',') := by simpa using hmem
    obtain ⟨item, hitem, hmem⟩ := (mem_intercalate (by decide)).mp hmem
    obtain ⟨registers, hregisters⟩ := exists_listItem? h item hitem
    exact not_mem_of_listItem? hregisters (Text.mem_trim hmem (by decide))

inductive Accepted (op : String) : Prop
  | register (h : isRegister op = true) : Accepted op
  | immediate {i : Int} (h : Operand.immediate op = .ok i) : Accepted op
  | label (h : isLabel op = true) : Accepted op
  | memory {a : Address} (h : address? op = some a)
      (offset : ∀ text, a.offset = .immediate text → ∃ i, Operand.immediate text = .ok i) :
      Accepted op
  | list {rs : List Reg} (h : registerList op = .ok rs) : Accepted op
  | base (h : isRegister (String.ofList (Form.dropMarks (Text.trimEnd op.toList))) = true) :
      Accepted op

theorem not_mem_of_isRegister (h : isRegister op = true) : '#' ∉ op.toList := by
  obtain ⟨r, hr⟩ := Option.isSome_iff_exists.mp h
  exact Reg.not_mem_of_ofChars? hr (by decide)

theorem quote_of_immediate (hc : NoDigit c) (hhash : c ≠ '#') {i : Int}
    (h : immediate op = .ok i) (hmem : c ∈ op.toList) : '\'' ∈ op.toList := by
  obtain ⟨body, htrim, hnumber⟩ := immediate_eq_ok.mp h
  have hmem := Text.mem_trim hmem hc.blank
  apply Text.trim_subset op.toList
  rw [htrim] at hmem ⊢
  have hbody := (List.mem_cons.mp hmem).resolve_left hhash
  rw [← String.toList_ofList (l := body)] at hbody ⊢
  exact .tail _ (quote_of_number? hc hnumber hbody)

/-- What follows a mark is a number: a character that is no digit stands there in a quote only. -/
theorem Accepted.quote (h : Accepted op) (hc : c ∈ ['$', '.']) (hhash : '#' ∈ op.toList)
    (hmem : c ∈ op.toList) : '\'' ∈ op.toList := by
  obtain ⟨hdigit, hne⟩ : NoDigit c ∧ c ≠ '#' := by
    simp only [List.mem_cons, List.not_mem_nil, or_false] at hc
    rcases hc with rfl | rfl
    · exact ⟨noDigit_dollar, by decide⟩
    · exact ⟨noDigit_dot, by decide⟩
  cases h with
  | register h => cases not_mem_of_isRegister h hhash
  | immediate h => exact quote_of_immediate hdigit hne h hmem
  | label h => cases isNameChar_of_isLabel h '#' (Text.mem_trim hhash (by decide))
  | memory h offset =>
    obtain ⟨text, htext, hmem, hsub⟩ := mem_offset_of_address? h (by simp_all) hmem
    obtain ⟨i, hi⟩ := offset text htext
    exact hsub (quote_of_immediate hdigit hne hi hmem)
  | list h => cases not_mem_of_registerList h hhash
  | base h =>
    apply absurd _ (not_mem_of_isRegister h)
    rw [String.toList_ofList]
    exact Form.mem_dropMarks (by decide) (by decide) hhash

namespace Accepted

variable {a b c : String}

theorem pair (ha : Accepted a) (hb : Accepted b) : ∀ op ∈ [a, b], Accepted op :=
  List.forall_mem_cons.mpr ⟨ha, List.forall_mem_singleton.mpr hb⟩

theorem triple (ha : Accepted a) (hb : Accepted b) (hc : Accepted c) :
    ∀ op ∈ [a, b, c], Accepted op :=
  List.forall_mem_cons.mpr ⟨ha, pair hb hc⟩

theorem of_lowRegister {d : Fin 8} (h : lowRegister op = .ok d) : Accepted op :=
  .register (Option.isSome_iff_exists.mpr ⟨_, lowRegister_eq_ok.mp h⟩)

theorem of_isSp (h : Form.isSp op = true) : Accepted op :=
  .register (Option.isSome_iff_exists.mpr ⟨_, beq_iff_eq.mp h⟩)

theorem of_sameRegister (h : sameRegister a b = true) : Accepted a ∧ Accepted b := by
  obtain ⟨ha, hsame⟩ := Bool.and_eq_true_iff.mp h
  refine ⟨.register ha, .register ?_⟩
  rwa [isRegister, ← beq_iff_eq.mp hsame]

theorem of_scaledImmediate {bits scale n : Nat} (h : scaledImmediate op bits scale = .ok n) :
    Accepted op := by
  obtain ⟨i, hi, _⟩ := bind_ok_iff.mp h
  exact .immediate hi

theorem of_shiftAmount {shift : Shift} {n : BitVec 5} (h : Form.shiftAmount shift op = .ok n) :
    Accepted op := by
  obtain ⟨i, hi, _⟩ := bind_ok_iff.mp h
  exact .immediate hi

theorem of_lowList {extra : Option Reg} {rs : List Reg} (h : Form.lowList op extra = .ok rs) :
    Accepted op := by
  obtain ⟨registers, hlist, _⟩ := bind_ok_iff.mp h
  exact .list hlist

theorem of_scaledOffset {address : Address} (h : address? op = some address) {bits scale n : Nat}
    (hn : address.scaledOffset bits scale = .ok n) : Accepted op := by
  refine .memory h fun text htext => ?_
  rw [Address.scaledOffset, htext] at hn
  obtain ⟨i, hi, _⟩ := bind_ok_iff.mp hn
  exact ⟨i, hi⟩

end Accepted

end Operand

namespace Form

open Operand

variable {f : Form} {operands : List String} {labels : Option Labels} {i : Instr}

theorem accepted_of_dataRegisters {op : DataOp} {registers : Fin 8 × Fin 8}
    (htakes : dataShapeTakes op.shape operands = true)
    (h : f.dataRegisters op operands = .ok registers) : ∀ op ∈ operands, Accepted op := by
  have hlow {op : String} (h : isLowRegister op = true) : Accepted op := by
    obtain ⟨r, hr, _⟩ := (Option.any_eq_true _ _).mp h
    exact .register (Option.isSome_iff_exists.mpr ⟨r, hr⟩)
  unfold dataRegisters at h
  unfold dataShapeTakes at htakes
  generalize op.shape = shape at h htakes
  split at htakes
  case h_8 => cases htakes
  all_goals simp only [Bool.and_eq_true] at htakes
  case h_1 d n m =>
    obtain ⟨hd, hn⟩ := Accepted.of_sameRegister htakes.2
    exact Accepted.triple hd hn (.register htakes.1)
  case h_5 n m => exact Accepted.pair (hlow htakes.1) (hlow htakes.2)
  case h_6 d n zero =>
    obtain ⟨value, hvalue, _⟩ := bind_ok_iff.mp h
    exact Accepted.triple (.register htakes.1.1) (.register htakes.1.2) (.immediate hvalue)
  case h_7 d n m =>
    exact Accepted.triple (.register htakes.1.1) (.register htakes.1.2) (.register htakes.2)
  all_goals exact Accepted.pair (.register htakes.1) (.register htakes.2)

theorem accepted_of_transferTakes {p : Address → Bool} (htakes : transferTakes p operands = true)
    (h : ∀ t mem a, operands = [t, mem] → address? mem = some a → p a = true → Accepted mem) :
    ∀ op ∈ operands, Accepted op := by
  unfold transferTakes at htakes
  split at htakes
  case h_1 t mem =>
    obtain ⟨ht, hmem⟩ := Bool.and_eq_true_iff.mp htakes
    obtain ⟨a, ha, hp⟩ := (Option.any_eq_true _ _).mp hmem
    exact Accepted.pair (.register ht) (h t mem a rfl ha hp)
  case h_2 => cases htakes

theorem accepted_of_parse (htakes : f.takes operands = true)
    (hi : f.parse operands labels = .ok i) : ∀ op ∈ operands, Accepted op := by
  cases f
  case data op =>
    obtain ⟨registers, h, _⟩ := bind_ok_iff.mp hi
    exact accepted_of_dataRegisters htakes h
  case transferSp load =>
    refine accepted_of_transferTakes htakes fun t mem a hops ha _ => ?_
    subst hops
    obtain ⟨x, _, hi⟩ := bind_ok_iff.mp hi
    obtain ⟨a', ha', hi⟩ := bind_ok_iff.mp hi
    obtain ⟨n, hn, _⟩ := bind_ok_iff.mp hi
    cases ha.symm.trans (address_eq_ok.mp ha')
    exact .of_scaledOffset ha hn
  case transferImm load width =>
    refine accepted_of_transferTakes htakes fun t mem a hops ha _ => ?_
    subst hops
    obtain ⟨x, _, hi⟩ := bind_ok_iff.mp hi
    obtain ⟨a', ha', hi⟩ := bind_ok_iff.mp hi
    obtain ⟨n, hn, _⟩ := bind_ok_iff.mp hi
    obtain ⟨y, _, hn⟩ := bind_ok_iff.mp hn
    obtain ⟨units, hunits, _⟩ := bind_ok_iff.mp hn
    cases ha.symm.trans (address_eq_ok.mp ha')
    exact .of_scaledOffset ha hunits
  case transferReg op =>
    refine accepted_of_transferTakes htakes fun t mem a hops ha hregister => ?_
    refine .memory ha fun text htext => ?_
    rw [htext] at hregister
    cases hregister
  all_goals rcases operands with _ | ⟨a, _ | ⟨b, _ | ⟨c, _ | ⟨d, rest⟩⟩⟩⟩
  all_goals
    simp only [takes, takesLabel, Bool.and_eq_true, Bool.false_eq_true] at htakes
  case nop.nil => exact List.forall_mem_nil _
  case branch.cons.nil | branchLink.cons.nil | branchIf.cons.nil =>
    exact List.forall_mem_singleton.mpr (.label htakes)
  case exchange.cons.nil => exact List.forall_mem_singleton.mpr (.register htakes)
  case push.cons.nil | pop.cons.nil =>
    obtain ⟨rs, hrs, _⟩ := bind_ok_iff.mp hi
    exact List.forall_mem_singleton.mpr (.of_lowList hrs)
  case storeMultiple.cons.cons.nil | loadMultiple.cons.cons.nil =>
    obtain ⟨x, hx, _⟩ := bind_ok_iff.mp hi
    obtain ⟨n, _, hx⟩ := bind_ok_iff.mp hx
    obtain ⟨rs, hrs, _⟩ := bind_ok_iff.mp hx
    exact Accepted.pair (.base htakes.1) (.of_lowList hrs)
  case adr.cons.cons.nil | loadLiteral.cons.cons.nil =>
    exact Accepted.pair (.register htakes.1) (.label htakes.2)
  case unary.cons.cons.nil =>
    obtain ⟨x, hx, hi⟩ := bind_ok_iff.mp hi
    obtain ⟨y, hy, _⟩ := bind_ok_iff.mp hi
    exact Accepted.pair (.of_lowRegister hx) (.of_lowRegister hy)
  case moveImm.cons.cons.nil | compareImm.cons.cons.nil | immEight.cons.cons.nil =>
    obtain ⟨x, hx, hi⟩ := bind_ok_iff.mp hi
    obtain ⟨n, hn, _⟩ := bind_ok_iff.mp hi
    exact Accepted.pair (.of_lowRegister hx) (.of_scaledImmediate hn)
  case immEight.cons.cons.cons.nil =>
    obtain ⟨_, _, hi⟩ := bind_ok_iff.mp hi
    obtain ⟨n, hn, _⟩ := bind_ok_iff.mp hi
    obtain ⟨ha, hb⟩ := Accepted.of_sameRegister htakes.1
    exact Accepted.triple ha hb (.of_scaledImmediate hn)
  case shiftImm.cons.cons.nil =>
    obtain ⟨_, _, hi⟩ := bind_ok_iff.mp hi
    obtain ⟨n, hn, _⟩ := bind_ok_iff.mp hi
    exact Accepted.pair (.register htakes.1) (.of_shiftAmount hn)
  case shiftImm.cons.cons.cons.nil =>
    obtain ⟨x, hx, hi⟩ := bind_ok_iff.mp hi
    obtain ⟨y, hy, hi⟩ := bind_ok_iff.mp hi
    obtain ⟨n, hn, _⟩ := bind_ok_iff.mp hi
    exact Accepted.triple (.of_lowRegister hx) (.of_lowRegister hy) (.of_shiftAmount hn)
  case immThree.cons.cons.cons.nil =>
    obtain ⟨x, hx, hi⟩ := bind_ok_iff.mp hi
    obtain ⟨y, hy, hi⟩ := bind_ok_iff.mp hi
    obtain ⟨n, hn, _⟩ := bind_ok_iff.mp hi
    exact Accepted.triple (.of_lowRegister hx) (.of_lowRegister hy) (.of_scaledImmediate hn)
  case adjustSp.cons.cons.nil =>
    obtain ⟨_, _, hi⟩ := bind_ok_iff.mp hi
    obtain ⟨n, hn, _⟩ := bind_ok_iff.mp hi
    exact Accepted.pair (.of_isSp htakes.1) (.of_scaledImmediate hn)
  case adjustSp.cons.cons.cons.nil =>
    obtain ⟨_, _, hi⟩ := bind_ok_iff.mp hi
    obtain ⟨n, hn, _⟩ := bind_ok_iff.mp hi
    exact Accepted.triple (.of_isSp htakes.1.1) (.of_isSp htakes.1.2) (.of_scaledImmediate hn)
  case addSp.cons.cons.cons.nil =>
    obtain ⟨x, hx, hi⟩ := bind_ok_iff.mp hi
    obtain ⟨_, _, hi⟩ := bind_ok_iff.mp hi
    obtain ⟨n, hn, _⟩ := bind_ok_iff.mp hi
    exact Accepted.triple (.of_lowRegister hx) (.of_isSp htakes.1.2) (.of_scaledImmediate hn)
  case compareHigh.cons.cons.nil =>
    exact Accepted.pair (.register htakes.1.1) (.register htakes.1.2)
  case regThree.cons.cons.cons.nil =>
    exact Accepted.triple (.register htakes.1.1) (.register htakes.1.2) (.register htakes.2)
  case addHigh.cons.cons.cons.nil =>
    obtain ⟨ha, hb⟩ := Accepted.of_sameRegister htakes.1
    exact Accepted.triple ha hb (.register htakes.2)
  all_goals exact Accepted.pair (.register htakes.1) (.register htakes.2)

end Form

end Thumb

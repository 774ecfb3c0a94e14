import Thumb.Proofs.ListTransfer
import Thumb.Proofs.Respelling

namespace Thumb

namespace Operand

/-- What one item of a register list names: a register, or all from one to another above it. -/
inductive ListItem : List Char → Finset Reg → Prop
  | one {text : List Char} {r : Reg} (h : Reg.ofChars? text = some r) : ListItem text {r}
  | range {first last : List Char} {r s : Reg} (hfirst : Reg.ofChars? first = some r)
      (hlast : Reg.ofChars? last = some s) (hle : r.number ≤ s.number) {names : Finset Reg}
      (hnames : ∀ x, x ∈ names ↔ r.number ≤ x.number ∧ x.number ≤ s.number) :
      ListItem (first ++ '-' :: last) names

inductive ListItems : List (List Char) → Finset Reg → Prop
  | nil : ListItems [] ∅
  | cons {item : List Char} {items : List (List Char)} {names rest : Finset Reg}
      (hitem : ListItem (Text.trim item) names) (hitems : ListItems items rest)
      (hnew : Disjoint names rest) : ListItems (item :: items) (names ∪ rest)

/-- An operand that names a set of registers in braces. -/
def NamesSet (op : String) (names : Finset Reg) : Prop :=
  ∃ items, items ≠ [] ∧ Text.trim op.toList = '\x7b' :: ([','].intercalate items ++ ['\x7d']) ∧
    ListItems items names

/-- An operand that names a low register, with or without marks after it. -/
def NamesBase (op : String) (n : Fin 8) (marked : Bool) : Prop :=
  ∃ name count, Text.trim op.toList = name ++ List.replicate count '!' ∧
    Reg.ofChars? name = some (.low n) ∧ marked = decide (0 < count)

section Items

variable {cs : List Char} {names : Finset Reg} {rs done out : List Reg} {op : String}
  {items : List (List Char)}

theorem mem_registerRange {first last r : Reg} :
    r ∈ registerRange first last ↔ first.number ≤ r.number ∧ r.number ≤ last.number := by
  have hall : r ∈ Reg.all := List.mem_map.mpr ⟨r.number, List.mem_finRange _, rfl⟩
  rw [registerRange, List.mem_filter, and_iff_right hall, Bool.and_eq_true, decide_eq_true_eq,
    decide_eq_true_eq]

theorem nodup_registerRange (first last : Reg) : (registerRange first last).Nodup := by
  apply List.Nodup.filter
  exact (List.nodup_finRange 16).map fun _ _ h => congrArg Reg.number h

theorem toFinset_registerRange_self (r : Reg) : (registerRange r r).toFinset = {r} := by
  apply Finset.ext
  intro s
  rw [List.mem_toFinset, mem_registerRange, Finset.mem_singleton]
  constructor
  · rintro ⟨hle, hge⟩
    exact congrArg Reg.mk (le_antisymm hge hle)
  · rintro rfl
    exact ⟨le_refl _, le_refl _⟩

theorem listItem?_of_not_mem (h : '-' ∉ cs) :
    listItem? cs = (Reg.ofChars? cs).map fun r => registerRange r r := by
  have hdrop : cs.dropWhile (· != '-') = [] := by
    rw [List.dropWhile_eq_nil_iff]
    intro c hc
    exact bne_iff_ne.mpr fun heq => h (heq ▸ hc)
  have hread : listItem? cs = (Reg.ofChars? cs).bind fun r => (Reg.ofChars? cs).bind fun s =>
      if r.number ≤ s.number then some (registerRange r s) else none := by
    rw [listItem?, hdrop]
    rfl
  rw [hread]
  cases Reg.ofChars? cs with
  | none => rfl
  | some r => exact if_pos (le_refl _)

theorem listItem?_append {first last : List Char} (h : '-' ∉ first) :
    listItem? (first ++ '-' :: last) = (Reg.ofChars? first).bind fun r =>
      (Reg.ofChars? last).bind fun s =>
        if r.number ≤ s.number then some (registerRange r s) else none := by
  have hfirst : ∀ c ∈ first, (c != '-') = true := by
    intro c hc
    exact bne_iff_ne.mpr fun heq => h (heq ▸ hc)
  rw [listItem?, List.dropWhile_append_of_pos hfirst, List.takeWhile_append_of_pos hfirst]
  simp

theorem ListItem.of_listItem? (h : listItem? cs = some rs) :
    rs.Nodup ∧ ListItem cs rs.toFinset := by
  by_cases hmem : '-' ∈ cs
  · obtain ⟨first, last, rfl, hfirst⟩ := List.eq_append_cons_of_mem hmem
    rw [listItem?_append hfirst] at h
    simp only [Option.bind_eq_some_iff] at h
    obtain ⟨r, hr, s, hs, h⟩ := h
    split at h
    case isTrue hle =>
      cases h
      refine ⟨nodup_registerRange r s, .range hr hs hle ?_⟩
      intro x
      rw [List.mem_toFinset, mem_registerRange]
    case isFalse => cases h
  · rw [listItem?_of_not_mem hmem, Option.map_eq_some_iff] at h
    obtain ⟨r, hr, rfl⟩ := h
    rw [toFinset_registerRange_self]
    exact ⟨nodup_registerRange r r, .one hr⟩

theorem ListItem.listItem? (h : ListItem cs names) :
    ∃ rs, listItem? cs = some rs ∧ rs.Nodup ∧ rs.toFinset = names := by
  cases h with
  | @one _ r hr =>
    refine ⟨registerRange r r, ?_, nodup_registerRange r r, toFinset_registerRange_self r⟩
    rw [listItem?_of_not_mem (Reg.not_mem_of_ofChars? hr (by decide)), hr]
    rfl
  | @range first last r s hfirst hlast hle _ hnames =>
    refine ⟨registerRange r s, ?_, nodup_registerRange r s, ?_⟩
    · rw [listItem?_append (Reg.not_mem_of_ofChars? hfirst (by decide)), hfirst, hlast]
      exact if_pos hle
    · apply Finset.ext
      intro x
      rw [List.mem_toFinset, mem_registerRange, hnames]

theorem appendNew_of_nodup (h : (done ++ rs).Nodup) : appendNew op done rs = .ok (done ++ rs) := by
  induction rs generalizing done with
  | nil => exact congrArg Except.ok (List.append_nil done).symm
  | cons r rs ih =>
    have hr : r ∉ done := by
      intro hmem
      exact (List.nodup_append.mp h).2.2 r hmem r (.head _) rfl
    rw [List.append_cons] at h ⊢
    rw [appendNew, if_neg hr, ih h]

theorem nodup_of_appendNew (hdone : done.Nodup) (h : appendNew op done rs = .ok out) :
    out.Nodup := by
  induction rs generalizing done with
  | nil =>
    cases h
    exact hdone
  | cons r rs ih =>
    unfold appendNew at h
    split at h
    case isTrue => cases h
    case isFalse hr =>
      apply ih _ h
      rw [← List.concat_eq_append]
      exact hdone.concat hr

/-- Items are collected when no register occurs twice, neither in them nor in those before. -/
theorem ListItems.of_collectItems (hdone : done.Nodup) (h : collectItems op done items = .ok out) :
    out.Nodup ∧ ∃ names, ListItems items names ∧ Disjoint done.toFinset names ∧
      out.toFinset = done.toFinset ∪ names := by
  induction items generalizing done with
  | nil =>
    cases h
    exact ⟨hdone, ∅, .nil, Finset.disjoint_empty_right _, (Finset.union_empty _).symm⟩
  | cons item items ih =>
    unfold collectItems at h
    split at h
    case h_1 => cases h
    case h_2 rs hrs =>
      obtain ⟨next, hnext, h⟩ := bind_ok_iff.mp h
      obtain ⟨_, hitem⟩ := ListItem.of_listItem? hrs
      have hnodup := nodup_of_appendNew hdone hnext
      cases eq_of_appendNew hnext
      obtain ⟨hout, names, hnames, hdisjoint, heq⟩ := ih hnodup h
      rw [List.toFinset_append, Finset.disjoint_union_left] at hdisjoint
      refine ⟨hout, rs.toFinset ∪ names, .cons hitem hnames hdisjoint.2, ?_, ?_⟩
      · rw [Finset.disjoint_union_right]
        refine ⟨?_, hdisjoint.1⟩
        rw [List.disjoint_toFinset_iff_disjoint]
        exact List.disjoint_of_nodup_append hnodup
      · rw [heq, List.toFinset_append, Finset.union_assoc]

theorem ListItems.collectItems (op : String) (h : ListItems items names) (hdone : done.Nodup)
    (hnew : Disjoint done.toFinset names) :
    ∃ out, collectItems op done items = .ok out ∧ out.toFinset = done.toFinset ∪ names := by
  induction h generalizing done with
  | nil => exact ⟨done, rfl, (Finset.union_empty _).symm⟩
  | @cons item items names rest hitem hitems hrest ih =>
    obtain ⟨rs, hrs, hnodup, rfl⟩ := hitem.listItem?
    rw [Finset.disjoint_union_right] at hnew
    have happend : (done ++ rs).Nodup :=
      hdone.append hnodup (List.disjoint_toFinset_iff_disjoint.mp hnew.1)
    have hdisjoint : Disjoint (done ++ rs).toFinset rest := by
      rw [List.toFinset_append, Finset.disjoint_union_left]
      exact ⟨hnew.2, hrest⟩
    obtain ⟨out, hout, heq⟩ := ih happend hdisjoint
    refine ⟨out, ?_, ?_⟩
    · simp only [Operand.collectItems, hrs, appendNew_of_nodup happend]
      exact hout
    · rw [heq, List.toFinset_append, Finset.union_assoc]

theorem ListItem.comma_not_mem (h : ListItem cs names) : ',' ∉ cs := by
  cases h with
  | one hr => exact Reg.not_mem_of_ofChars? hr (by decide)
  | range hfirst hlast =>
    have hfirst : ',' ∉ _ := Reg.not_mem_of_ofChars? hfirst (by decide)
    have hlast : ',' ∉ _ := Reg.not_mem_of_ofChars? hlast (by decide)
    simp [hfirst, hlast]

theorem ListItems.comma_not_mem (h : ListItems items names) : ∀ item ∈ items, ',' ∉ item := by
  induction h with
  | nil => exact List.forall_mem_nil _
  | cons hitem _ _ ih =>
    refine List.forall_mem_cons.mpr ⟨?_, ih⟩
    intro hmem
    exact hitem.comma_not_mem (Text.mem_trim hmem (by decide))

theorem registerList_iff :
    (∃ rs, registerList op = .ok rs ∧ rs.toFinset = names) ↔ NamesSet op names := by
  constructor
  · rintro ⟨rs, h, rfl⟩
    unfold registerList at h
    split at h
    case h_1 => cases h
    case h_2 inner hinner =>
      obtain ⟨_, names, hnames, _, heq⟩ := ListItems.of_collectItems List.nodup_nil h
      rw [List.toFinset_nil, Finset.empty_union] at heq
      refine ⟨inner.splitOn ',', List.splitOn_ne_nil ',' inner, ?_, heq ▸ hnames⟩
      rw [List.intercalate_splitOn, eq_of_between? hinner]
  · rintro ⟨items, hne, htext, hitems⟩
    obtain ⟨rs, hrs, heq⟩ :=
      hitems.collectItems op List.nodup_nil (Finset.disjoint_empty_left _)
    rw [List.toFinset_nil, Finset.empty_union] at heq
    refine ⟨rs, ?_, heq⟩
    rw [registerList, htext, between?_append]
    dsimp only
    rw [List.splitOn_intercalate _ hitems.comma_not_mem hne, hrs]

theorem NamesSet.nonempty (h : NamesSet op names) : names.Nonempty := by
  obtain ⟨rs, hrs, rfl⟩ := registerList_iff.mpr h
  obtain ⟨r, hr⟩ := List.exists_mem_of_ne_nil _ (registerList_ne_nil hrs)
  exact ⟨r, List.mem_toFinset.mpr hr⟩

theorem NamesSet.isRegisterList (h : NamesSet op names) : isRegisterList op = true := by
  obtain ⟨items, _, htext, _⟩ := h
  rw [Operand.isRegisterList, isEnclosed, htext, ← List.cons_append, List.getLast?_concat]
  rfl

theorem lowList_eq_ok {extra : Option Reg} :
    Form.lowList op extra = .ok rs ↔
      registerList op = .ok rs ∧ ∀ r ∈ rs, r.isLow = true ∨ some r = extra := by
  rw [Form.lowList, bind_ok_iff]
  constructor
  · rintro ⟨rs', hrs, h⟩
    split at h
    case h_1 => cases h
    case h_2 hnone =>
      cases h
      refine ⟨hrs, ?_⟩
      intro r hr
      have hallowed := List.find?_eq_none.mp hnone r hr
      grind
  · rintro ⟨hrs, hallowed⟩
    have hnone : (rs.find? fun r => !r.isLow && some r != extra) = none := by
      rw [List.find?_eq_none]
      intro r hr
      have hr := hallowed r hr
      grind
    refine ⟨rs, hrs, ?_⟩
    rw [hnone]
    rfl

end Items

section Base

variable {cs : List Char} {op : String} {n : Fin 8} {marked : Bool}

theorem dropMarks_cons {c : Char} (hc : c ≠ '!') (cs : List Char) :
    Form.dropMarks (c :: cs) = c :: Form.dropMarks cs := by
  have hlast : [c].dropWhile (· == '!') = [c] := List.dropWhile_cons_of_neg (by simpa using hc)
  rw [Form.dropMarks, Form.dropMarks, List.reverse_cons, List.dropWhile_append, hlast]
  split
  case isTrue h =>
    rw [List.isEmpty_iff.mp h]
    rfl
  case isFalse =>
    rw [List.reverse_append]
    rfl

theorem dropMarks_append (h : '!' ∉ cs) (count : Nat) :
    Form.dropMarks (cs ++ List.replicate count '!') = cs := by
  induction count with
  | zero =>
    rw [List.replicate_zero, List.append_nil]
    apply List.rdropWhile_eq_self_iff.mpr
    intro hne hlast
    exact h (beq_iff_eq.mp hlast ▸ List.getLast_mem hne)
  | succ count ih =>
    rw [List.replicate_succ', ← List.append_assoc]
    exact (List.rdropWhile_concat_pos (· == '!') _ _ rfl).trans ih

theorem exists_marks (cs : List Char) :
    ∃ count, cs = Form.dropMarks cs ++ List.replicate count '!' := by
  have hmarks : cs.reverse.takeWhile (· == '!') =
      List.replicate (cs.reverse.takeWhile (· == '!')).length '!' := by
    apply List.eq_replicate_of_mem
    intro c hc
    have hmark := List.mem_takeWhile_imp (p := (· == '!')) hc
    exact beq_iff_eq.mp hmark
  refine ⟨(cs.reverse.takeWhile (· == '!')).length, ?_⟩
  rw [← List.reverse_inj, List.reverse_append, List.reverse_replicate, ← hmarks, Form.dropMarks,
    List.reverse_reverse, List.takeWhile_append_dropWhile]

theorem marked_append (h : '!' ∉ cs) (count : Nat) :
    ((cs ++ List.replicate count '!').getLast? == some '!') = decide (0 < count) := by
  cases count with
  | zero =>
    rw [List.replicate_zero, List.append_nil]
    apply beq_false_of_ne
    intro hlast
    exact h (List.mem_of_getLast? hlast)
  | succ count =>
    rw [List.replicate_succ', ← List.append_assoc, List.getLast?_concat]
    rfl

/-- A base is read as the register that it names, and its last character tells whether it has
marks. -/
theorem namesBase_iff :
    NamesBase op n marked ↔
      lowRegister (String.ofList (Form.dropMarks (Text.trim op.toList))) = .ok n ∧
        ((Text.trim op.toList).getLast? == some '!') = marked := by
  rw [lowRegister_eq_ok, Reg.parse?, String.toList_ofList]
  constructor
  · rintro ⟨name, count, htext, hname, rfl⟩
    have hmark : '!' ∉ name := Reg.not_mem_of_ofChars? hname (by decide)
    rw [htext, dropMarks_append hmark, marked_append hmark]
    exact ⟨hname, rfl⟩
  · rintro ⟨hname, rfl⟩
    obtain ⟨count, htext⟩ := exists_marks (Text.trim op.toList)
    refine ⟨_, count, htext, hname, ?_⟩
    rw [← marked_append (Reg.not_mem_of_ofChars? hname (by decide)) count, ← htext]

theorem ofChars?_cons_blank {c : Char} (hc : Text.isBlank c = true) (cs : List Char) :
    Reg.ofChars? (c :: cs) = Reg.ofChars? cs := by
  have hstart : Text.trimStart (c :: cs) = Text.trimStart cs := List.dropWhile_cons_of_pos hc
  rw [Reg.ofChars?, Text.trim, hstart]
  rfl

theorem ofChars?_dropMarks_trimEnd (cs : List Char) :
    Reg.ofChars? (Form.dropMarks (Text.trimEnd cs)) =
      Reg.ofChars? (Form.dropMarks (Text.trim cs)) := by
  induction cs with
  | nil => rfl
  | cons c cs ih =>
    cases hc : Text.isBlank c with
    | false =>
      have hstart : Text.trimStart (c :: cs) = c :: cs :=
        List.dropWhile_cons_of_neg (Bool.not_eq_true _ ▸ hc)
      rw [Text.trim, hstart]
    | true =>
      have hstart : Text.trim (c :: cs) = Text.trim cs :=
        congrArg Text.trimEnd (List.dropWhile_cons_of_pos hc)
      have hne : c ≠ '!' := by
        rintro rfl
        cases hc
      rw [hstart, ← ih, Source.trimEnd_cons, hc, Bool.and_true]
      split
      case isTrue h => rw [List.isEmpty_iff.mp h]
      case isFalse => rw [dropMarks_cons hne, ofChars?_cons_blank hc]

theorem NamesBase.isRegister (h : NamesBase op n marked) :
    isRegister (String.ofList (Form.dropMarks (Text.trimEnd op.toList))) = true := by
  obtain ⟨hread, _⟩ := namesBase_iff.mp h
  rw [lowRegister_eq_ok, Reg.parse?, String.toList_ofList] at hread
  rw [Operand.isRegister, Reg.parse?, String.toList_ofList, ofChars?_dropMarks_trimEnd, hread]
  rfl

end Base

end Operand

open Operand

/-- The operands that say a transfer of several registers, for each form. -/
inductive ListTransfer.Written : Form → List String → ListTransfer → Prop
  | push {list : String} {s : Finset Reg} (hlist : NamesSet list s)
      (hs : ∀ r ∈ s, r.isLow = true ∨ r = .lr) : Written .push [list] ⟨false, .sp, true, s⟩
  | pop {list : String} {s : Finset Reg} (hlist : NamesSet list s)
      (hs : ∀ r ∈ s, r.isLow = true ∨ r = .pc) : Written .pop [list] ⟨true, .sp, false, s⟩
  | store {base list : String} {n : Fin 8} {s : Finset Reg} (hbase : NamesBase base n true)
      (hlist : NamesSet list s) (hs : ∀ r ∈ s, r.isLow = true) :
      Written .storeMultiple [base, list] ⟨false, .low n, false, s⟩
  | load {base list : String} {n : Fin 8} {s : Finset Reg}
      (hbase : NamesBase base n (decide (.low n ∉ s))) (hlist : NamesSet list s)
      (hs : ∀ r ∈ s, r.isLow = true) :
      Written .loadMultiple [base, list] ⟨true, .low n, false, s⟩

namespace Form

variable {f g : Form} {operands : List String} {labels : Option Labels} {t : ListTransfer}

theorem lowList_iff {op : String} {extra : Option Reg} {s : Finset Reg} :
    (∃ rs, lowList op extra = .ok rs ∧ rs.toFinset = s) ↔
      NamesSet op s ∧ ∀ r ∈ s, r.isLow = true ∨ some r = extra := by
  simp only [lowList_eq_ok, ← registerList_iff]
  constructor
  · rintro ⟨rs, ⟨hrs, hallowed⟩, rfl⟩
    exact ⟨⟨rs, hrs, rfl⟩, fun r hr => hallowed r (List.mem_toFinset.mp hr)⟩
  · rintro ⟨⟨rs, hrs, rfl⟩, hallowed⟩
    exact ⟨rs, ⟨hrs, fun r hr => hallowed r (List.mem_toFinset.mpr hr)⟩, rfl⟩

theorem multipleOperands_iff {load : Bool} {base list : String} {n : Fin 8} {mask : BitVec 8} :
    multipleOperands load base list = .ok (n, mask) ↔
      NamesBase base n (!load || !mask.getLsb n) ∧
        ∃ rs, lowList list none = .ok rs ∧ listMask rs = mask := by
  rw [namesBase_iff]
  simp only [multipleOperands, bind_ok_iff]
  constructor
  · rintro ⟨n', hn, rs, hrs, h⟩
    split at h
    case isTrue => cases h
    case isFalse hmark =>
      cases h
      exact ⟨⟨hn, not_not.mp hmark⟩, rs, hrs, rfl⟩
  · rintro ⟨⟨hn, hmark⟩, rs, hrs, rfl⟩
    refine ⟨n, hn, rs, hrs, ?_⟩
    rw [if_neg (not_not.mpr hmark)]
    rfl

section

variable {i : Instr}

theorem written_of_stack (hf : f = push ∨ f = pop) (h : f.parse operands labels = .ok i) :
    ∃ t, ListTransfer.Written f operands t ∧ i.listTransfer? = some t := by
  have hnames {op : String} {extra : Reg} {rs : List Reg}
      (hrs : lowList op (some extra) = .ok rs) :
      NamesSet op rs.toFinset ∧ ∀ r ∈ rs.toFinset, r.isLow = true ∨ r = extra := by
    simpa only [Option.some.injEq] using lowList_iff.mp ⟨rs, hrs, rfl⟩
  obtain ⟨op, rs, rfl, ⟨rfl, hrs, rfl⟩ | ⟨rfl, hrs, rfl⟩⟩ := stack_of_parse hf h
  · obtain ⟨hlist, hs⟩ := hnames hrs
    exact ⟨_, .push hlist hs, Instr.listTransfer?_push hs⟩
  · obtain ⟨hlist, hs⟩ := hnames hrs
    exact ⟨_, .pop hlist hs, Instr.listTransfer?_pop hs⟩

theorem not_getLsb_listMask (rs : List Reg) (n : Fin 8) :
    (!(listMask rs).getLsb n) = decide (.low n ∉ rs.toFinset) := by
  rw [decide_not, Bool.not_inj_iff, Bool.eq_iff_iff, getLsb_listMask, decide_eq_true_eq,
    List.mem_toFinset]

theorem written_of_multiple (hf : f = storeMultiple ∨ f = loadMultiple)
    (h : f.parse operands labels = .ok i) :
    ∃ t, ListTransfer.Written f operands t ∧ i.listTransfer? = some t := by
  have hnames {list : String} {rs : List Reg} (hrs : lowList list none = .ok rs) :
      NamesSet list rs.toFinset ∧ ∀ r ∈ rs.toFinset, r.isLow = true := by
    simpa only [reduceCtorEq, or_false] using lowList_iff.mp ⟨rs, hrs, rfl⟩
  obtain ⟨base, list, n, mask, rfl, ⟨rfl, hread, rfl⟩ | ⟨rfl, hread, rfl⟩⟩ :=
    multiple_of_parse hf h
  · obtain ⟨hbase, rs, hrs, rfl⟩ := multipleOperands_iff.mp hread
    obtain ⟨hlist, hs⟩ := hnames hrs
    exact ⟨_, .store hbase hlist hs, Instr.listTransfer?_storeMultiple n hs⟩
  · obtain ⟨hbase, rs, hrs, rfl⟩ := multipleOperands_iff.mp hread
    obtain ⟨hlist, hs⟩ := hnames hrs
    rw [Bool.not_true, Bool.false_or, not_getLsb_listMask] at hbase
    exact ⟨_, .load hbase hlist hs, Instr.listTransfer?_loadMultiple n hs⟩

end

theorem parse_of_written (labels : Option Labels) (h : ListTransfer.Written f operands t) :
    ∃ i, f.parse operands labels = .ok i ∧ i.listTransfer? = some t := by
  cases h with
  | @push list s hlist hs =>
    have hallowed : ∀ r ∈ s, r.isLow = true ∨ some r = some .lr := by simpa using hs
    obtain ⟨rs, hrs, rfl⟩ := lowList_iff.mpr ⟨hlist, hallowed⟩
    exact ⟨_, bind_ok_iff.mpr ⟨rs, hrs, rfl⟩, Instr.listTransfer?_push hs⟩
  | @pop list s hlist hs =>
    have hallowed : ∀ r ∈ s, r.isLow = true ∨ some r = some .pc := by simpa using hs
    obtain ⟨rs, hrs, rfl⟩ := lowList_iff.mpr ⟨hlist, hallowed⟩
    exact ⟨_, bind_ok_iff.mpr ⟨rs, hrs, rfl⟩, Instr.listTransfer?_pop hs⟩
  | @store base list n s hbase hlist hs =>
    obtain ⟨rs, hrs, rfl⟩ := lowList_iff.mpr ⟨hlist, fun r hr => .inl (hs r hr)⟩
    have hread : multipleOperands false base list = .ok (n, listMask rs) :=
      multipleOperands_iff.mpr ⟨hbase, rs, hrs, rfl⟩
    exact ⟨_, bind_ok_iff.mpr ⟨_, hread, rfl⟩, Instr.listTransfer?_storeMultiple n hs⟩
  | @load base list n s hbase hlist hs =>
    obtain ⟨rs, hrs, rfl⟩ := lowList_iff.mpr ⟨hlist, fun r hr => .inl (hs r hr)⟩
    rw [← not_getLsb_listMask] at hbase
    have hread : multipleOperands true base list = .ok (n, listMask rs) :=
      multipleOperands_iff.mpr ⟨hbase, rs, hrs, rfl⟩
    exact ⟨_, bind_ok_iff.mpr ⟨_, hread, rfl⟩, Instr.listTransfer?_loadMultiple n hs⟩

theorem takes_of_written (h : ListTransfer.Written f operands t) : f.takes operands = true := by
  cases h with
  | push hlist | pop hlist => exact hlist.isRegisterList
  | store hbase hlist | load hbase hlist =>
    rw [takes, hbase.isRegister, hlist.isRegisterList, Bool.and_true]

theorem nonempty_of_written (h : ListTransfer.Written f operands t) : t.registers.Nonempty := by
  cases h with
  | push hlist | pop hlist | store _ hlist | load _ hlist => exact hlist.nonempty

def movers : List Form :=
  [.push, .pop, .storeMultiple, .loadMultiple]

theorem written_of_parse {i : Instr} (hf : f ∈ movers) (h : f.parse operands labels = .ok i) :
    ∃ t, ListTransfer.Written f operands t ∧ i.listTransfer? = some t := by
  simp only [movers, List.mem_cons, List.not_mem_nil, or_false] at hf
  rcases hf with rfl | rfl | rfl | rfl
  · exact written_of_stack (.inl rfl) h
  · exact written_of_stack (.inr rfl) h
  · exact written_of_multiple (.inl rfl) h
  · exact written_of_multiple (.inr rfl) h

theorem eq_of_answersTo (hf : f ∈ movers) {mnemonic : String} (h : f.answersTo mnemonic = true)
    (hg : g.answersTo mnemonic = true) : g = f := by
  have halone : ∀ f ∈ movers, ∀ mnemonic ∈ f.name :: f.aliases, ∀ g ∈ all,
      g.answersTo mnemonic = true → g = f := by
    decide
  apply halone f hf mnemonic _ g g.mem_all hg
  rw [answersTo, Bool.or_eq_true, beq_iff_eq, List.contains_iff_mem] at h
  exact List.mem_cons.mpr h

end Form

theorem encodeInstruction_iff_parse {f : Form} (hf : f ∈ Form.movers) {mnemonic : String}
    (hm : f.answersTo (String.ofList (Text.upper mnemonic.toList)) = true)
    {operands : List String} {labels : Option Labels} {opcode : List Halfword} :
    encodeInstruction mnemonic operands labels = .ok opcode ↔
      ∃ i, f.parse operands labels = .ok i ∧ i.encode = opcode := by
  rw [encodeInstruction_eq_ok]
  constructor
  · rintro ⟨g, hg, i, hi, hopcode⟩
    obtain ⟨hanswers, _⟩ := Bool.and_eq_true_iff.mp (Form.canEncode_of_select hg)
    cases Form.eq_of_answersTo hf hm hanswers
    exact ⟨i, hi, hopcode⟩
  · rintro ⟨i, hi, hopcode⟩
    obtain ⟨t, ht, _⟩ := Form.written_of_parse hf hi
    have hcan := Bool.and_eq_true_iff.mpr ⟨hm, Form.takes_of_written ht⟩
    obtain ⟨g, hg⟩ := Form.exists_select hcan
    obtain ⟨hanswers, _⟩ := Bool.and_eq_true_iff.mp (Form.canEncode_of_select hg)
    cases Form.eq_of_answersTo hf hm hanswers
    exact ⟨f, hg, i, hi, hopcode⟩

/-- A text that moves several registers is encoded exactly when it says a transfer, and executing
its opcode makes this transfer. -/
theorem register_list_moves_named_set (f : Form) (hf : f ∈ Form.movers) (mnemonic : String)
    (hm : f.answersTo (String.ofList (Text.upper mnemonic.toList)) = true)
    (operands : List String) (labels : Option Labels) :
    ((∃ opcode, encodeInstruction mnemonic operands labels = .ok opcode) ↔
        ∃ t, ListTransfer.Written f operands t) ∧
      ∀ opcode, encodeInstruction mnemonic operands labels = .ok opcode →
        ∃ t, ListTransfer.Written f operands t ∧
          (∀ t', ListTransfer.Written f operands t' → t' = t) ∧
          ∀ {μ : Type} [Bus μ] (following : Option Halfword) (m m' : Machine μ),
            executeOpcode? opcode following m = some (.ok () m') ↔ t.Performed m m' := by
  simp only [encodeInstruction_iff_parse hf hm]
  refine ⟨⟨?_, ?_⟩, ?_⟩
  · rintro ⟨_, i, hi, rfl⟩
    obtain ⟨t, ht, _⟩ := Form.written_of_parse hf hi
    exact ⟨t, ht⟩
  · rintro ⟨t, ht⟩
    obtain ⟨i, hi, _⟩ := Form.parse_of_written labels ht
    exact ⟨i.encode, i, hi, rfl⟩
  · rintro _ ⟨i, hi, rfl⟩
    obtain ⟨t, ht, hi'⟩ := Form.written_of_parse hf hi
    refine ⟨t, ht, ?_, ?_⟩
    · intro t' ht'
      obtain ⟨j, hj, hj'⟩ := Form.parse_of_written labels ht'
      cases hi.symm.trans hj
      exact Option.some.inj (hj'.symm.trans hi')
    · intro μ _ following m m'
      rw [i.executeOpcode?_encode, Option.some.injEq,
        Instr.exec_ok_iff_performed hi' (Form.nonempty_of_written ht)]

/-- A list out of order, with a range and with the base in it. -/
theorem register_list_moves_named_set_base_in_list :
    let operands := ["r3", " \x7bR5 , r0 - r1,R3\x7d"]
    let t : ListTransfer := ⟨true, .low 3, false, {.low 0, .low 1, .low 3, .low 5}⟩
    Form.loadMultiple.answersTo (String.ofList (Text.upper "ldmia".toList)) = true ∧
      encodeInstruction "ldmia" operands none = .ok [0xCB2B] ∧
      ListTransfer.Written .loadMultiple operands t ∧
      ∀ {μ : Type} [Bus μ] (following : Option Halfword) (m m' : Machine μ),
        executeOpcode? [0xCB2B] following m = some (.ok () m') ↔ t.Performed m m' := by
  intro operands t
  have hanswers :
      Form.loadMultiple.answersTo (String.ofList (Text.upper "ldmia".toList)) = true := by
    decide
  have hencode : encodeInstruction "ldmia" operands none = .ok [0xCB2B] := by decide +kernel
  have hbase : NamesBase "r3" 3 false := ⟨['r', '3'], 0, by decide, by decide, rfl⟩
  have hrange : ListItem (Text.trim " r0 - r1".toList) {.low 0, .low 1} := by
    have htext : Text.trim " r0 - r1".toList = "r0 ".toList ++ '-' :: " r1".toList := by
      decide
    rw [htext]
    refine .range (r := .low 0) (s := .low 1)
      (by decide) (by decide) (by decide) ?_
    rintro ⟨n⟩
    revert n
    decide
  have hlist : NamesSet " \x7bR5 , r0 - r1,R3\x7d"
      ({.low 5} ∪ ({.low 0, .low 1} ∪ ({.low 3} ∪ ∅))) :=
    ⟨["R5 ".toList, " r0 - r1".toList, "R3".toList], by decide, by decide,
      .cons (.one (by decide)) (.cons hrange (.cons (.one (by decide)) .nil
        (by decide)) (by decide)) (by decide)⟩
  have hset : ({.low 5} ∪ ({.low 0, .low 1} ∪ ({.low 3} ∪ ∅)) : Finset Reg) =
      {.low 0, .low 1, .low 3, .low 5} := by decide
  rw [hset] at hlist
  have hwritten : ListTransfer.Written .loadMultiple operands t := .load hbase hlist (by decide)
  obtain ⟨t', _, hunique, hexec⟩ := (register_list_moves_named_set .loadMultiple (by decide) "ldmia"
    hanswers operands none).2 _ hencode
  cases hunique t hwritten
  exact ⟨hanswers, hencode, hwritten, hexec⟩

end Thumb

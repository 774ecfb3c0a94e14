import Thumb.Proofs.Transcription

namespace Thumb

namespace Source

def holdsConstant (lines : List (List Char)) (k : Nat) : Bool :=
  lines[k]?.any (lineKind · = .constant)

/-- A line that gives a name to a constant or to a place. -/
def NamedAt (lines : List (List Char)) (i : Nat) (name : String) : Prop :=
  ∃ raw, lines[i]? = some raw ∧ lineLabel raw = some name

/-- The order of definitions: constants come before places, wherever they stand. -/
def DefinedBefore (lines : List (List Char)) (j i : Nat) : Prop :=
  holdsConstant lines j = holdsConstant lines i ∧ j < i ∨
    holdsConstant lines j = true ∧ holdsConstant lines i = false

def lineName (e : List Char × Nat) : Option (String × Nat) :=
  (lineLabel e.1).map (·, e.2)

/-- The names of the constants, or of the places, on lines of which the first has a number. -/
def namesFrom (constant : Bool) (n : Nat) (lines : List (List Char)) : List (String × Nat) :=
  ((lines.zipIdx n).filter fun e => decide (lineKind e.1 = .constant) = constant).filterMap lineName

section Names

variable {lines : List (List Char)} {constant : Bool} {name : String} {i j : Nat}

theorem mem_namesFrom :
    (name, i) ∈ namesFrom constant 0 lines ↔
      NamedAt lines i name ∧ holdsConstant lines i = constant := by
  have hconstant {raw : List Char} (hraw : lines[i]? = some raw) :
      holdsConstant lines i = decide (lineKind raw = .constant) := by
    rw [holdsConstant, hraw, Option.any_some]
  simp only [namesFrom, lineName, List.mem_filterMap, List.mem_filter, Option.map_eq_some_iff]
  constructor
  · rintro ⟨⟨raw, k⟩, ⟨hmem, hkind⟩, name', hname, heq⟩
    cases heq
    have hraw := List.mk_mem_zipIdx_iff_getElem?.mp hmem
    exact ⟨⟨raw, hraw, hname⟩, (hconstant hraw).trans (of_decide_eq_true hkind)⟩
  · rintro ⟨⟨raw, hraw, hname⟩, hkind⟩
    refine ⟨(raw, i), ⟨List.mk_mem_zipIdx_iff_getElem?.mpr hraw, ?_⟩, name, hname, rfl⟩
    exact decide_eq_true ((hconstant hraw).symm.trans hkind)

theorem pairwise_namesFrom : (namesFrom constant 0 lines).Pairwise (·.2 < ·.2) := by
  have hnumbers : lines.zipIdx.Pairwise (·.2 < ·.2) := by
    rw [← List.pairwise_map, List.zipIdx_map_snd]
    exact List.pairwise_lt_range'
  rw [namesFrom, List.pairwise_filterMap]
  refine (hnumbers.filter _).imp ?_
  intro e e' hlt x hx x' hx'
  obtain ⟨_, _, rfl⟩ := Option.map_eq_some_iff.mp hx
  obtain ⟨_, _, rfl⟩ := Option.map_eq_some_iff.mp hx'
  exact hlt

/-- The names of lines in the order of their definitions. -/
def lineDefinitions (lines : List (List Char)) : List (String × Nat) :=
  namesFrom true 0 lines ++ namesFrom false 0 lines

theorem pairwise_lineDefinitions :
    (lineDefinitions lines).Pairwise fun x y => DefinedBefore lines x.2 y.2 := by
  have hkind {constant : Bool} {x : String × Nat} (hx : x ∈ namesFrom constant 0 lines) :
      holdsConstant lines x.2 = constant := (mem_namesFrom.mp hx).2
  have hsame (constant : Bool) :
      (namesFrom constant 0 lines).Pairwise fun x y => DefinedBefore lines x.2 y.2 := by
    refine pairwise_namesFrom.imp_of_mem ?_
    intro x y hx hy hlt
    exact .inl ⟨(hkind hx).trans (hkind hy).symm, hlt⟩
  rw [lineDefinitions, List.pairwise_append]
  refine ⟨hsame true, hsame false, ?_⟩
  intro x hx y hy
  exact .inr ⟨hkind hx, hkind hy⟩

theorem namedAt_of_mem (h : (name, i) ∈ lineDefinitions lines) : NamedAt lines i name := by
  rcases List.mem_append.mp h with h | h
  · exact (mem_namesFrom.mp h).1
  · exact (mem_namesFrom.mp h).1

theorem DefinedBefore.ne (h : DefinedBefore lines j i) : i ≠ j := by
  rintro rfl
  rcases h with ⟨_, hlt⟩ | ⟨hconstant, hplace⟩
  · exact Nat.lt_irrefl i hlt
  · rw [hconstant] at hplace
    cases hplace

end Names

section Recorded

variable {all lines : List (List Char)} {raw : List Char} {n : Nat}
  {pending pending' : Option (String × Nat)} {xs rs : List Record}

/-- Where the definition of a name on a line is reported: at the line whose record takes the label,
if the label waits for one, and else at the line. -/
inductive ReportedAt (all : List (List Char)) (i : Nat) : Nat → Prop
  | own (h : ∀ raw name, all[i]? = some raw → lineMark raw = some name → ∀ j, ¬Takes all i j) :
      ReportedAt all i i
  | taken {j : Nat} {raw : List Char} {name : String} (hraw : all[i]? = some raw)
      (hmark : lineMark raw = some name) (h : Takes all i j) : ReportedAt all i j

theorem ReportedAt.of_ne (hraw : all[n]? = some raw) (hmark : lineKind raw ≠ .mark)
    (hfinish : lineKind raw ≠ .finish) : ReportedAt all n n := by
  apply ReportedAt.own
  intro raw' name hraw' hname
  cases hraw.symm.trans hraw'
  rcases (lineLabel_of_mark hname).1 with hkind | hkind
  · exact absurd hkind hmark
  · exact absurd hkind hfinish

/-- A name of a line, and the same name with the line of its report. -/
structure Carried (all : List (List Char)) (x y : String × Nat) : Prop where
  name : y.1 = x.1
  line : ReportedAt all x.2 y.2

def placeName (n : Nat) (raw : List Char) : Option (String × Nat) :=
  if lineKind raw = .constant then none else lineName (raw, n)

theorem namesFrom_cons :
    namesFrom false n (raw :: lines) =
      (placeName n raw).toList ++ namesFrom false (n + 1) lines := by
  unfold namesFrom placeName
  rw [List.zipIdx_cons]
  by_cases hkind : lineKind raw = .constant
  · rw [if_pos hkind, List.filter_cons_of_neg (by simpa using hkind)]
    rfl
  · rw [if_neg hkind, List.filter_cons_of_pos (by simpa using hkind)]
    cases hname : lineName (raw, n) with
    | none => rw [List.filterMap_cons_none hname]; rfl
    | some x => rw [List.filterMap_cons_some hname]; rfl

theorem placeName_of_ne {name : Option String} (hkind : lineKind raw ≠ .constant)
    (hlabel : lineLabel raw = name) : placeName n raw = name.map (·, n) := by
  rw [placeName, if_neg hkind, lineName, hlabel]

theorem Passive.placeName_eq (h : Passive raw) : placeName n raw = none := by
  rcases h with hkind | ⟨_, hlabel⟩
  · exact if_pos hkind
  · rw [placeName, lineName, hlabel, Option.map_none, ite_self]

/-- A label that waits before a line: only lines that it waits over stand between. -/
structure Waits (all : List (List Char)) (n : Nat) (e : String × Nat) : Prop where
  mark : ∃ raw, all[e.2]? = some raw ∧ lineMark raw = some e.1
  lt : e.2 < n
  between {k : Nat} {raw : List Char} (hi : e.2 < k) (hk : k < n) (hraw : all[k]? = some raw) :
    Passive raw

theorem Effect.waits (h : Effect n raw pending xs pending') (hraw : all[n]? = some raw)
    (hp : ∀ e, pending = some e → Waits all n e) :
    ∀ e, pending' = some e → Waits all (n + 1) e := by
  intro e he
  cases h with
  | pass passive =>
    have hwaits := hp e he
    refine ⟨hwaits.mark, Nat.lt_succ_of_lt hwaits.lt, ?_⟩
    intro k raw' hi hk hraw'
    rcases Nat.lt_or_eq_of_le (Nat.le_of_lt_succ hk) with hk | rfl
    · exact hwaits.between hi hk hraw'
    · cases hraw.symm.trans hraw'
      exact passive
  | mark mark =>
    cases he
    exact ⟨⟨raw, hraw, mark⟩, Nat.lt_succ_self n, by omega⟩
  | take kind label ops => cases he
  | own kind label ops => cases he
  | area kind label => cases he

/-- A label that no record has taken is taken by none, if what comes next ends its wait. -/
theorem Waits.reportedAt {e : String × Nat} (h : Waits all n e)
    (hend : ∀ j, n ≤ j → ¬Takes all e.2 j) : ReportedAt all e.2 e.2 := by
  apply ReportedAt.own
  intro _ _ _ _ j htakes
  rcases Nat.lt_or_ge j n with hj | hj
  · obtain ⟨raw, hraw, hkind, _⟩ := htakes.record
    exact (h.between htakes.lt hj hraw).ne_record hkind
  · exact hend j hj htakes

theorem carried_waiting (hp : ∀ e, pending = some e → ReportedAt all e.2 e.2) :
    List.Forall₂ (Carried all) pending.toList ((waiting pending).filterMap Record.definition) := by
  cases pending with
  | none => exact .nil
  | some e => exact .cons ⟨rfl, hp e rfl⟩ .nil

/-- The names that a line settles, among the one that waits and its own, are those of the records
that it adds. -/
theorem Effect.carried (h : Effect n raw pending xs pending') (hraw : all[n]? = some raw)
    (hp : ∀ e, pending = some e → Waits all n e) :
    ∃ settled, pending.toList ++ (placeName n raw).toList = settled ++ pending'.toList ∧
      List.Forall₂ (Carried all) settled (xs.filterMap Record.definition) := by
  have hdropped (hpassive : ¬Passive raw)
      (hrecord : ¬(lineKind raw = .record ∧ lineLabel raw = none)) :
      List.Forall₂ (Carried all) pending.toList
        ((waiting pending).filterMap Record.definition) := by
    apply carried_waiting
    intro e he
    apply (hp e he).reportedAt
    intro j hj
    exact not_takes hraw (hp e he).lt hpassive hrecord hj
  cases h with
  | pass passive =>
    refine ⟨[], ?_, .nil⟩
    rw [passive.placeName_eq]
    exact List.append_nil _
  | mark mark =>
    have hname := placeName_of_ne (n := n) (ne_of_lineMark mark (by decide) (by decide))
      (lineLabel_of_mark mark).2
    refine ⟨pending.toList, by rw [hname]; rfl, hdropped (not_passive_of_mark mark) ?_⟩
    intro hrecord
    exact ne_record_of_mark mark hrecord.1
  | take kind label ops =>
    have hname := placeName_of_ne (n := n) (by rw [kind]; decide) label
    refine ⟨pending.toList, by rw [hname]; rfl, ?_⟩
    cases pending with
    | none => exact .nil
    | some e =>
      obtain ⟨⟨raw', hraw', hmark⟩, hlt, hbetween⟩ := hp e rfl
      have htakes : Takes all e.2 n := ⟨hlt, ⟨raw, hraw, kind, label⟩, hbetween⟩
      exact .cons ⟨rfl, .taken hraw' hmark htakes⟩ .nil
  | @own operands name kind label ops =>
    have hname := placeName_of_ne (n := n) (by rw [kind]; decide) label
    have hown : ReportedAt all n n := .of_ne hraw (by rw [kind]; decide) (by rw [kind]; decide)
    have hothers := hdropped (mt Passive.ne_record (not_not_intro kind)) (by simp [label])
    refine ⟨pending.toList ++ [(name, n)], ?_, ?_⟩
    · rw [hname]
      exact (List.append_nil _).symm
    · rw [List.filterMap_append]
      exact List.rel_append hothers (.cons ⟨rfl, hown⟩ .nil)
  | area kind label =>
    have hname := placeName_of_ne (n := n) (by rw [kind]; decide) label
    refine ⟨pending.toList, by rw [hname]; rfl, ?_⟩
    exact hdropped (mt Passive.ne_area (not_not_intro kind)) (by simp [kind])

theorem Recorded.carried (h : Recorded n pending lines rs) (hdrop : all.drop n = lines)
    (hp : ∀ e, pending = some e → Waits all n e) :
    List.Forall₂ (Carried all) (pending.toList ++ namesFrom false n lines)
      (rs.filterMap Record.definition) := by
  induction h with
  | @nil n pending =>
    have hnone : namesFrom false n [] = [] := rfl
    rw [hnone, List.append_nil]
    apply carried_waiting
    intro e he
    apply (hp e he).reportedAt
    intro j hj htakes
    obtain ⟨raw, hraw, _⟩ := htakes.record
    have hlt := (List.getElem?_eq_some_iff.mp hraw).1
    have hle := List.drop_eq_nil_iff.mp hdrop
    omega
  | @cons n pending pending' raw lines xs rs effect rest ih =>
    obtain ⟨hraw, hdrop⟩ := of_drop_cons hdrop
    obtain ⟨settled, heq, hsettled⟩ := effect.carried hraw hp
    -- What the line does not settle waits before the rest.
    have hrest := ih hdrop (effect.waits hraw hp)
    rw [namesFrom_cons, ← List.append_assoc, heq, List.append_assoc, List.filterMap_append]
    exact List.rel_append hsettled hrest

end Recorded

theorem carried_constants {lines : List (List Char)} {es : List (List Char × Nat)}
    {cs : List Constant} (h : List.Forall₂ ConstantOf es cs)
    (hes : ∀ e ∈ es, lines[e.2]? = some e.1 ∧ lineKind e.1 = .constant) :
    List.Forall₂ (Carried lines) (es.filterMap lineName) (cs.map fun c => (c.name, c.line)) := by
  induction h with
  | nil => exact .nil
  | @cons e c es cs hc _ ih =>
    obtain ⟨⟨hraw, hkind⟩, hes⟩ := List.forall_mem_cons.mp hes
    have hname : lineName e = some (c.name, c.line) := by
      rw [lineName, hc.name, hc.line, Option.map_some]
    have hown : ReportedAt lines c.line c.line := by
      rw [hc.line]
      exact .of_ne hraw (by rw [hkind]; decide) (by rw [hkind]; decide)
    rw [List.filterMap_cons_some hname, List.map_cons]
    exact .cons ⟨rfl, hown⟩ (ih hes)

theorem parse_carried {source : String} {p : Program} (h : parse source = .ok p) :
    let lines := toEnd (Text.lines source.toList)
    List.Forall₂ (Carried lines) (namesFrom true 0 lines)
        (p.constants.map fun c => (c.name, c.line)) ∧
      List.Forall₂ (Carried lines) (namesFrom false 0 lines)
        (p.records.filterMap Record.definition) := by
  intro lines
  obtain ⟨ss, hss, rfl⟩ := map_ok_iff.mp h
  have htells := tellsAll_of_statements hss
  have hlines : ∀ e ∈ lines.zipIdx.filter (lineKind ·.1 = .constant),
      lines[e.2]? = some e.1 ∧ lineKind e.1 = .constant := by
    intro e he
    obtain ⟨hmem, hkind⟩ := List.mem_filter.mp he
    exact ⟨List.mem_zipIdx_iff_getElem?.mp hmem, of_decide_eq_true hkind⟩
  have hconstants := carried_constants (transcribes_of_tellsAll htells).constants hlines
  constructor
  · simpa [namesFrom] using hconstants
  · exact (recorded_of_build htells).carried rfl (by intro e he; cases he)

theorem carried_definitions {source : String} {p : Program} (h : parse source = .ok p) :
    List.Forall₂ (Carried (toEnd (Text.lines source.toList)))
      (lineDefinitions (toEnd (Text.lines source.toList))) p.definitions := by
  obtain ⟨hconstants, hplaces⟩ := parse_carried h
  rw [Program.records, List.filterMap_flatMap] at hplaces
  exact List.rel_append hconstants hplaces

variable {lines : List (List Char)} {line : Nat} {name : String}

theorem ReportedAt.not_namedAt {i : Nat} (h : ReportedAt lines i line) (hne : line ≠ i) :
    ∀ other, ¬NamedAt lines line other := by
  rintro other ⟨raw, hraw, hlabel⟩
  cases h with
  | own => exact hne rfl
  | taken _ _ htakes =>
    obtain ⟨raw', hraw', _, hnone⟩ := htakes.record
    cases hraw.symm.trans hraw'
    rw [hlabel] at hnone
    cases hnone

theorem exists_redefined {definitions : List (String × Nat)}
    (h : List.Forall₂ (Carried lines) (lineDefinitions lines) definitions)
    (htwice : Redefines definitions name line) :
    ∃ i j, NamedAt lines i name ∧ NamedAt lines j name ∧ DefinedBefore lines j i ∧
      ReportedAt lines i line := by
  obtain ⟨before, after, rfl, hbefore⟩ := htwice
  -- Both lists are cut before the second definition.
  have hearlier := List.forall₂_take_append _ _ _ h
  have hlater := List.forall₂_drop_append _ _ _ h
  obtain ⟨⟨second, i⟩, rest, hsecond, _, hdrop⟩ := List.forall₂_cons_right_iff.mp hlater
  obtain ⟨e, he, hname⟩ := List.mem_map.mp hbefore
  obtain ⟨⟨first, j⟩, htake, hfirst⟩ := exists_of_mem (List.Forall₂.flip hearlier) he
  obtain rfl : name = second := hsecond.name
  obtain rfl : name = first := hname.symm.trans hfirst.name
  have hmem : (name, i) ∈ (lineDefinitions lines).drop before.length := by
    rw [hdrop]
    exact List.mem_cons_self
  have hordered : (lineDefinitions lines).Pairwise _ := pairwise_lineDefinitions
  rw [← List.take_append_drop before.length (lineDefinitions lines), List.pairwise_append]
    at hordered
  exact ⟨i, j, namedAt_of_mem (List.mem_of_mem_drop hmem),
    namedAt_of_mem (List.mem_of_mem_take htake), hordered.2.2 _ htake _ hmem, hsecond.line⟩

end Source

/-- A name that is refused as defined twice stands on two lines before the end, and the error is
reported for the one that is defined later: at that line, unless its label waits for a record, and
then at the line of that record, which has no label of its own. -/
theorem assemble_duplicate (source : String) (line : Nat) (name : String)
    (h : assemble source = .error (.duplicateSymbol line name)) :
    let lines := Source.toEnd (Text.lines source.toList)
    ∃ i j, Source.NamedAt lines i name ∧ Source.NamedAt lines j name ∧ i ≠ j ∧
      Source.DefinedBefore lines j i ∧ Source.ReportedAt lines i line ∧
      (line ≠ i → ∀ other, ¬Source.NamedAt lines line other) := by
  intro lines
  rcases bind_error_iff.mp h with h | ⟨p, hp, h⟩
  · obtain ⟨_, _, heq⟩ := Source.statements_error (map_error_iff.mp h)
    cases heq
  · rcases bind_error_iff.mp h with h | ⟨o, ho, h⟩
    · have htwice := Object.ofProgram_redefines (Source.parse_names hp) h
      obtain ⟨i, j, hi, hj, hbefore, hline⟩ :=
        Source.exists_redefined (Source.carried_definitions hp) htwice
      exact ⟨i, j, hi, hj, hbefore.ne, hbefore, hline, hline.not_namedAt⟩
    · rcases Object.link_eq_error (Object.ofProgram_wellFormed ho) h with h | ⟨_, h, _⟩
      · cases h
      · cases h

/-- A label of a record; and a label that a constant of its name comes before, although it stands
after it. -/
theorem assemble_duplicate_named :
    let source := "x NOP\nx ADDS R0, R0, R0\n"
    let constant := "n NOP\nm\nn EQU 5\n"
    let lines := Source.toEnd (Text.lines source.toList)
    let lines' := Source.toEnd (Text.lines constant.toList)
    assemble source = .error (.duplicateSymbol 1 "x") ∧
    assemble constant = .error (.duplicateSymbol 0 "n") ∧
    (∃ i j, Source.NamedAt lines i "x" ∧ Source.NamedAt lines j "x" ∧ i ≠ j ∧
      Source.DefinedBefore lines j i ∧ Source.ReportedAt lines i 1 ∧
      (1 ≠ i → ∀ other, ¬Source.NamedAt lines 1 other)) ∧
    ∃ i j, Source.NamedAt lines' i "n" ∧ Source.NamedAt lines' j "n" ∧ i ≠ j ∧
      Source.DefinedBefore lines' j i ∧ Source.ReportedAt lines' i 0 ∧
      (0 ≠ i → ∀ other, ¬Source.NamedAt lines' 0 other) := by
  intro source constant lines lines'
  have hsource : assemble source = .error (.duplicateSymbol 1 "x") := by decide
  have hconstant : assemble constant = .error (.duplicateSymbol 0 "n") := by decide
  exact ⟨hsource, hconstant, assemble_duplicate source 1 "x" hsource,
    assemble_duplicate constant 0 "n" hconstant⟩

/-- The label on line 1 is defined twice, and the error names line 2, which has no label. -/
theorem assemble_duplicate_waiting :
    let source := "a NOP\na\n NOP\n"
    let lines := Source.toEnd (Text.lines source.toList)
    assemble source = .error (.duplicateSymbol 2 "a") ∧
    Source.NamedAt lines 0 "a" ∧ Source.NamedAt lines 1 "a" ∧
    ∀ name, ¬Source.NamedAt lines 2 name := by
  intro source lines
  have hlines : lines = ["a NOP".toList, "a".toList, " NOP".toList] := by decide
  refine ⟨by decide, ⟨_, by rw [hlines]; rfl, by decide⟩, ⟨_, by rw [hlines]; rfl, by decide⟩, ?_⟩
  rintro name ⟨raw, hraw, hlabel⟩
  rw [hlines] at hraw
  cases hraw
  have hnone : Source.lineLabel " NOP".toList = none := by decide
  rw [hnone] at hlabel
  cases hlabel

end Thumb

import Thumb.Proofs.SourceLine

namespace Thumb

def Program.records (p : Program) : List Record :=
  p.areas.flatMap (·.records)

namespace Source

/-- The record of a label that no other record takes. -/
def loneLabel (name : String) (line : Nat) : Record :=
  { label := some name, mnemonic := "SPACE", operands := ["0"], line }

def waiting : Option (String × Nat) → List Record
  | none => []
  | some (name, line) => [loneLabel name line]

/-- The label that a line leaves to what follows. -/
def lineMark (raw : List Char) : Option String :=
  if lineKind raw = .mark ∨ lineKind raw = .finish then lineLabel raw else none

/-- A line that a label waits over: a constant, or nothing to carry and no label. -/
def Passive (raw : List Char) : Prop :=
  lineKind raw = .constant ∨ (lineKind raw = .mark ∨ lineKind raw = .finish) ∧ lineLabel raw = none

/-- What a line adds while a label waits, and the label that waits after it. -/
inductive Effect (n : Nat) (raw : List Char) (pending : Option (String × Nat)) :
    List Record → Option (String × Nat) → Prop
  | pass (passive : Passive raw) : Effect n raw pending [] pending
  | mark {name : String} (mark : lineMark raw = some name) :
      Effect n raw pending (waiting pending) (some (name, n))
  | take {operands : List String} (kind : lineKind raw = .record) (label : lineLabel raw = none)
      (ops : lineOperands raw = some operands) :
      Effect n raw pending [⟨pending.map (·.1), lineWord raw, operands, n⟩] none
  | own {operands : List String} {name : String} (kind : lineKind raw = .record)
      (label : lineLabel raw = some name) (ops : lineOperands raw = some operands) :
      Effect n raw pending (waiting pending ++ [⟨some name, lineWord raw, operands, n⟩]) none
  | area (kind : lineKind raw = .area) (label : lineLabel raw = none) :
      Effect n raw pending (waiting pending) none

/-- The records of consecutive lines, of which the first has a number. -/
inductive Recorded : Nat → Option (String × Nat) → List (List Char) → List Record → Prop
  | nil {n : Nat} {pending : Option (String × Nat)} : Recorded n pending [] (waiting pending)
  | cons {n : Nat} {pending pending' : Option (String × Nat)} {raw : List Char}
      {lines : List (List Char)} {xs rs : List Record} (effect : Effect n raw pending xs pending')
      (rest : Recorded (n + 1) pending' lines rs) : Recorded n pending (raw :: lines) (xs ++ rs)

/-- The same by areas: what lines add to the area that is open, and the areas that they open. -/
inductive Transcript :
    Nat → Option (String × Nat) → List (List Char) → List Record → List Area → Prop
  | nil {n : Nat} {pending : Option (String × Nat)} : Transcript n pending [] (waiting pending) []
  | line {n : Nat} {pending pending' : Option (String × Nat)} {raw : List Char}
      {lines : List (List Char)} {xs rs : List Record} {areas : List Area}
      (kind : lineKind raw ≠ .area) (effect : Effect n raw pending xs pending')
      (rest : Transcript (n + 1) pending' lines rs areas) :
      Transcript n pending (raw :: lines) (xs ++ rs) areas
  | area {n : Nat} {pending : Option (String × Nat)} {raw : List Char} {lines : List (List Char)}
      {a : Area} {areas : List Area} (kind : lineKind raw = .area)
      (effect : Effect n raw pending (waiting pending) none)
      (rest : Transcript (n + 1) none lines a.records areas) :
      Transcript n pending (raw :: lines) (waiting pending) (a :: areas)

theorem Transcript.recorded {n : Nat} {pending : Option (String × Nat)} {lines : List (List Char)}
    {rs : List Record} {areas : List Area} (h : Transcript n pending lines rs areas) :
    Recorded n pending lines (rs ++ areas.flatMap (·.records)) := by
  induction h with
  | nil => exact (List.append_nil _).symm ▸ .nil
  | line kind effect rest ih =>
    rw [List.append_assoc]
    exact .cons effect ih
  | area kind effect rest ih =>
    rw [List.flatMap_cons]
    exact .cons effect ih

namespace Draft

def pushInto (areas : List Area) (r : Record) : List Area :=
  (pushRecord { program := { areas } } r).program.areas

theorem pushInto_concat (areas : List Area) (a : Area) (r : Record) :
    pushInto (areas ++ [a]) r = areas ++ [{ a with records := a.records ++ [r] }] := by
  simp [pushInto, pushRecord]

theorem foldl_pushInto_concat (rs : List Record) (areas : List Area) (a : Area) :
    rs.foldl pushInto (areas ++ [a]) = areas ++ [{ a with records := a.records ++ rs }] := by
  induction rs generalizing a with
  | nil => rw [List.foldl_nil, List.append_nil]
  | cons r rs ih => rw [List.foldl_cons, pushInto_concat, ih, List.append_assoc]; rfl

theorem foldl_pushInto_nil (rs : List Record) :
    rs.foldl pushInto [] = if rs = [] then [] else [{ defaultArea with records := rs }] := by
  cases rs with
  | nil => rfl
  | cons r rs =>
    have hfirst : pushInto [] r = [] ++ [{ defaultArea with records := [r] }] := rfl
    rw [List.foldl_cons, hfirst, foldl_pushInto_concat]
    rfl

theorem areas_flush (d : Draft) :
    d.flush.program.areas = (waiting d.pending).foldl pushInto d.program.areas := by
  unfold flush
  cases d.pending with
  | none => rfl
  | some entry => rfl

end Draft

section Step

variable {n : Nat} {raw : List Char} {lines : List (List Char)} {rs : List Record}
  {areas : List Area}

theorem transcript_line {d d' : Draft} {xs : List Record} (hkind : lineKind raw ≠ .area)
    (effect : Effect n raw d.pending xs d'.pending)
    (hareas : d'.program.areas = xs.foldl Draft.pushInto d.program.areas)
    (rest : Transcript (n + 1) d'.pending lines rs areas) :
    ∃ rs' areas', Transcript n d.pending (raw :: lines) rs' areas' ∧
      rs.foldl Draft.pushInto d'.program.areas ++ areas =
        rs'.foldl Draft.pushInto d.program.areas ++ areas' := by
  refine ⟨xs ++ rs, areas, .line hkind effect rest, ?_⟩
  rw [hareas, List.foldl_append]

/-- A statement does to the draft what its line does to the transcript. -/
theorem transcript_add {s : Statement} (tells : Tells raw s) (d : Draft)
    (rest : Transcript (n + 1) (d.add n s).pending lines rs areas) :
    ∃ rs' areas', Transcript n d.pending (raw :: lines) rs' areas' ∧
      rs.foldl Draft.pushInto (d.add n s).program.areas ++ areas =
        rs'.foldl Draft.pushInto d.program.areas ++ areas' := by
  have hline {k : LineKind} (kind : lineKind raw = k) (hk : k ≠ .area) : lineKind raw ≠ .area := by
    rwa [kind]
  cases tells with
  | blank kind label =>
    exact transcript_line (hline kind (by decide)) (.pass (.inr ⟨.inl kind, label⟩)) rfl rest
  | constant kind label operands number =>
    exact transcript_line (hline kind (by decide)) (.pass (.inl kind)) rfl rest
  | label kind label =>
    have hmark : lineMark raw = _ := (if_pos (.inl kind)).trans label
    exact transcript_line (hline kind (by decide)) (.mark hmark) d.areas_flush rest
  | finish kind =>
    cases hlabel : lineLabel raw with
    | none =>
      rw [hlabel] at rest
      exact transcript_line (hline kind (by decide)) (.pass (.inr ⟨.inr kind, hlabel⟩)) rfl rest
    | some name =>
      rw [hlabel] at rest
      have hmark : lineMark raw = some name := (if_pos (.inr kind)).trans hlabel
      exact transcript_line (hline kind (by decide)) (.mark hmark) d.areas_flush rest
  | @record ops kind operands =>
    cases hlabel : lineLabel raw with
    | none =>
      rw [hlabel] at rest
      exact transcript_line (hline kind (by decide)) (.take kind hlabel operands) rfl rest
    | some name =>
      rw [hlabel] at rest
      have hpending : (d.add n (.record (some name) (lineWord raw) ops)).pending = none :=
        d.pending_flush
      have heffect : Effect n raw d.pending _ none := .own kind hlabel operands
      rw [← hpending] at heffect
      apply transcript_line (hline kind (by decide)) heffect _ rest
      rw [List.foldl_append, ← Draft.areas_flush]
      rfl
  | @area a kind label records =>
    have hpending : (d.add n (.area a)).pending = none := d.pending_flush
    have hopened : (d.add n (.area a)).program.areas = d.flush.program.areas ++ [a] := rfl
    rw [hpending] at rest
    refine ⟨waiting d.pending, { a with records := rs } :: areas,
      .area kind (.area kind label) rest, ?_⟩
    rw [hopened, Draft.foldl_pushInto_concat, records, Draft.areas_flush, List.append_assoc]
    rfl

end Step

theorem transcript_of_tellsAll {add : Draft → Nat × Statement → Draft}
    (hadd : ∀ d s, add d s = d.add s.1 s.2) {n : Nat} {lines : List (List Char)}
    {ss : List (Nat × Statement)} (h : TellsAll n lines ss) (d : Draft) :
    ∃ rs areas, Transcript n d.pending lines rs areas ∧
      (ss.foldl add d).flush.program.areas =
        rs.foldl Draft.pushInto d.program.areas ++ areas := by
  induction h generalizing d with
  | nil =>
    refine ⟨_, _, .nil, ?_⟩
    rw [List.foldl_nil, Draft.areas_flush, List.append_nil]
  | @cons n raw s lines ss tells rest ih =>
    obtain ⟨rs, areas, htranscript, hareas⟩ := ih (d.add n s)
    rw [List.foldl_cons, hadd, hareas]
    exact transcript_add tells d htranscript

section Waiting

variable (pending : Option (String × Nat))

theorem label_waiting : (waiting pending).filterMap (·.label) = (pending.map (·.1)).toList := by
  cases pending with
  | none => rfl
  | some e => rfl

theorem line_waiting : (waiting pending).map (·.line) = (pending.map (·.2)).toList := by
  cases pending with
  | none => rfl
  | some e => rfl

theorem mem_waiting {r : Record} (h : r ∈ waiting pending) :
    ∃ e, pending = some e ∧ r = loneLabel e.1 e.2 := by
  cases pending with
  | none => cases h
  | some e => exact ⟨e, rfl, List.mem_singleton.mp h⟩

end Waiting

def lineLabels (lines : List (List Char)) : List String :=
  (lines.filter (lineKind · ≠ .constant)).filterMap lineLabel

theorem lineLabels_cons (raw : List Char) (lines : List (List Char)) :
    lineLabels (raw :: lines) =
      (if lineKind raw = .constant then none else lineLabel raw).toList ++ lineLabels lines := by
  unfold lineLabels
  by_cases hkind : lineKind raw = .constant
  · simp [hkind]
  · rw [if_neg hkind, List.filter_cons_of_pos (by simpa using hkind)]
    cases hlabel : lineLabel raw with
    | none => rw [List.filterMap_cons_none hlabel]; rfl
    | some name => rw [List.filterMap_cons_some hlabel]; rfl

theorem lineLabel_of_mark {raw : List Char} {name : String} (h : lineMark raw = some name) :
    (lineKind raw = .mark ∨ lineKind raw = .finish) ∧ lineLabel raw = some name := by
  unfold lineMark at h
  split at h
  case isTrue hkind => exact ⟨hkind, h⟩
  case isFalse => cases h

theorem ne_of_lineMark {raw : List Char} {name : String} {k : LineKind}
    (h : lineMark raw = some name) (hmark : k ≠ .mark) (hfinish : k ≠ .finish) :
    lineKind raw ≠ k := by
  obtain ⟨hkind, _⟩ := lineLabel_of_mark h
  intro hk
  rw [hk] at hkind
  rcases hkind with hkind | hkind
  · exact hmark hkind
  · exact hfinish hkind

variable {n : Nat} {raw : List Char} {pending pending' : Option (String × Nat)}
  {lines : List (List Char)} {xs rs : List Record}

theorem Effect.labels (h : Effect n raw pending xs pending') :
    xs.filterMap (·.label) ++ (pending'.map (·.1)).toList = (pending.map (·.1)).toList ++
      (if lineKind raw = .constant then none else lineLabel raw).toList := by
  cases h with
  | pass passive =>
    rcases passive with hkind | ⟨_, hlabel⟩
    · rw [if_pos hkind]
      exact (List.append_nil _).symm
    · rw [hlabel, ite_self]
      exact (List.append_nil _).symm
  | mark mark =>
    obtain ⟨_, hlabel⟩ := lineLabel_of_mark mark
    rw [label_waiting, if_neg (ne_of_lineMark mark (by decide) (by decide)), hlabel]
    rfl
  | take kind label ops =>
    rw [kind, label]
    cases pending with
    | none => rfl
    | some e => rfl
  | own kind label ops =>
    rw [kind, label, List.filterMap_append, label_waiting, List.append_assoc]
    rfl
  | area kind label =>
    rw [kind, label, label_waiting]
    rfl

theorem Recorded.labels (h : Recorded n pending lines rs) :
    rs.filterMap (·.label) = (pending.map (·.1)).toList ++ lineLabels lines := by
  induction h with
  | nil => exact (label_waiting _).trans (List.append_nil _).symm
  | cons effect rest ih =>
    rw [List.filterMap_append, ih, ← List.append_assoc, effect.labels, lineLabels_cons,
      List.append_assoc]

theorem Effect.line_sublist (h : Effect n raw pending xs pending') :
    (xs.map (·.line) ++ (pending'.map (·.2)).toList).Sublist
      ((pending.map (·.2)).toList ++ [n]) := by
  cases h with
  | pass passive => exact List.sublist_append_left _ _
  | mark mark =>
    rw [line_waiting]
    exact .refl _
  | take kind label ops => exact List.sublist_append_right _ _
  | own kind label ops =>
    rw [List.map_append, line_waiting]
    exact (List.append_nil _).symm ▸ .refl _
  | area kind label =>
    rw [line_waiting]
    exact (List.append_nil _).symm ▸ List.sublist_append_left _ _

/-- Each line has at most one record, and the records follow the lines. -/
theorem Recorded.line_sublist (h : Recorded n pending lines rs) :
    (rs.map (·.line)).Sublist ((pending.map (·.2)).toList ++ List.range' n lines.length) := by
  induction h with
  | nil => exact line_waiting _ ▸ List.sublist_append_left _ _
  | @cons n pending pending' raw lines xs rs effect rest ih =>
    rw [List.map_append, List.length_cons, List.range'_succ]
    have hstep := effect.line_sublist.append_right (List.range' (n + 1) lines.length)
    rw [List.append_assoc, List.append_assoc] at hstep
    exact (ih.append_left _).trans hstep

def holdsRecord (lines : List (List Char)) (k : Nat) : Bool :=
  lines[k]?.any (lineKind · = .record)

theorem holdsRecord_eq {all : List (List Char)} (h : all[n]? = some raw) :
    holdsRecord all n = decide (lineKind raw = .record) := by
  rw [holdsRecord, h, Option.any_some]

structure RecordOf (e : List Char × Nat) (r : Record) : Prop where
  line : r.line = e.2
  mnemonic : r.mnemonic = lineWord e.1
  operands : lineOperands e.1 = some r.operands
  label {name : String} (h : lineLabel e.1 = some name) : r.label = some name

section Holds

variable {all : List (List Char)}

theorem of_drop_cons (h : all.drop n = raw :: lines) :
    all[n]? = some raw ∧ all.drop (n + 1) = lines := by
  constructor
  · rw [← Nat.add_zero n, ← List.getElem?_drop, h, List.getElem?_cons_zero]
  · rw [← List.drop_drop, h, List.drop_one, List.tail_cons]

theorem Passive.ne_record (h : Passive raw) : lineKind raw ≠ .record := by
  intro hkind
  rw [Passive, hkind] at h
  simp at h

theorem Passive.ne_area (h : Passive raw) : lineKind raw ≠ .area := by
  intro hkind
  rw [Passive, hkind] at h
  simp at h

theorem not_passive_of_mark {name : String} (h : lineMark raw = some name) : ¬Passive raw := by
  obtain ⟨_, hlabel⟩ := lineLabel_of_mark h
  intro hpassive
  rcases hpassive with hconstant | ⟨_, hnone⟩
  · exact ne_of_lineMark h (by decide) (by decide) hconstant
  · rw [hlabel] at hnone
    cases hnone

theorem ne_record_of_mark {name : String} (h : lineMark raw = some name) :
    lineKind raw ≠ .record :=
  ne_of_lineMark h (by decide) (by decide)

/-- A label that waits stands on a line that holds no record. -/
theorem Effect.holds_pending (hraw : all[n]? = some raw)
    (hp : ∀ e, pending = some e → holdsRecord all e.2 = false)
    (h : Effect n raw pending xs pending') :
    ∀ e, pending' = some e → holdsRecord all e.2 = false := by
  cases h with
  | pass passive => exact hp
  | mark mark =>
    intro e he
    cases he
    rw [holdsRecord_eq hraw]
    exact decide_eq_false (ne_record_of_mark mark)
  | take kind label ops =>
    intro e he
    cases he
  | own kind label ops =>
    intro e he
    cases he
  | area kind label =>
    intro e he
    cases he

theorem filter_waiting (hp : ∀ e, pending = some e → holdsRecord all e.2 = false) :
    (waiting pending).filter (holdsRecord all ·.line) = [] := by
  rw [List.filter_eq_nil_iff]
  intro r hr
  obtain ⟨e, he, rfl⟩ := mem_waiting pending hr
  simpa [loneLabel] using hp e he

theorem Effect.records (hraw : all[n]? = some raw)
    (hp : ∀ e, pending = some e → holdsRecord all e.2 = false)
    (h : Effect n raw pending xs pending') :
    List.Forall₂ RecordOf ([(raw, n)].filter (lineKind ·.1 = .record))
      (xs.filter (holdsRecord all ·.line)) := by
  have hholds := holdsRecord_eq hraw
  have hnone (hkind : lineKind raw ≠ .record) :
      [(raw, n)].filter (lineKind ·.1 = .record) = [] := by
    simpa using hkind
  have hsome (hkind : lineKind raw = .record) :
      [(raw, n)].filter (lineKind ·.1 = .record) = [(raw, n)] := by
    simpa using hkind
  cases h with
  | pass passive =>
    rw [hnone passive.ne_record]
    exact .nil
  | mark mark =>
    rw [hnone (ne_record_of_mark mark), filter_waiting hp]
    exact .nil
  | take kind label ops =>
    rw [hsome kind, List.filter_cons_of_pos (by simpa [kind] using hholds)]
    refine .cons ⟨rfl, rfl, ops, ?_⟩ .nil
    intro name hname
    rw [label] at hname
    cases hname
  | own kind label ops =>
    rw [hsome kind, List.filter_append, filter_waiting hp, List.nil_append,
      List.filter_cons_of_pos (by simpa [kind] using hholds)]
    refine .cons ⟨rfl, rfl, ops, ?_⟩ .nil
    intro name hname
    rw [label] at hname
    exact hname
  | area kind label =>
    rw [hnone (by rw [kind]; decide), filter_waiting hp]
    exact .nil

theorem lone_waiting {r : Record} (h : r ∈ waiting pending) :
    ∃ name, r = loneLabel name r.line := by
  obtain ⟨e, _, rfl⟩ := mem_waiting pending h
  exact ⟨e.1, rfl⟩

theorem Effect.lone (h : Effect n raw pending xs pending') (hraw : all[n]? = some raw) :
    ∀ r ∈ xs, holdsRecord all r.line = false → ∃ name, r = loneLabel name r.line := by
  have hrecord (hkind : lineKind raw = .record) : holdsRecord all n ≠ false := by
    rw [holdsRecord_eq hraw, hkind]
    decide
  intro r hr hholds
  cases h with
  | pass passive => cases hr
  | mark mark => exact lone_waiting hr
  | take kind label ops =>
    cases List.mem_singleton.mp hr
    exact absurd hholds (hrecord kind)
  | own kind label ops =>
    rcases List.mem_append.mp hr with hr | hr
    · exact lone_waiting hr
    · cases List.mem_singleton.mp hr
      exact absurd hholds (hrecord kind)
  | area kind label => exact lone_waiting hr

theorem Recorded.records (h : Recorded n pending lines rs) (hdrop : all.drop n = lines)
    (hp : ∀ e, pending = some e → holdsRecord all e.2 = false) :
    List.Forall₂ RecordOf ((lines.zipIdx n).filter (lineKind ·.1 = .record))
      (rs.filter (holdsRecord all ·.line)) := by
  induction h with
  | nil =>
    rw [filter_waiting hp]
    exact .nil
  | @cons n pending pending' raw lines xs rs effect rest ih =>
    obtain ⟨hraw, hdrop⟩ := of_drop_cons hdrop
    rw [List.zipIdx_cons, ← List.singleton_append, List.filter_append, List.filter_append]
    exact List.rel_append (effect.records hraw hp) (ih hdrop (effect.holds_pending hraw hp))

theorem Recorded.lone (h : Recorded n pending lines rs) (hdrop : all.drop n = lines) :
    ∀ r ∈ rs, holdsRecord all r.line = false → ∃ name, r = loneLabel name r.line := by
  induction h with
  | nil =>
    intro r hr _
    exact lone_waiting hr
  | @cons n pending pending' raw lines xs rs effect rest ih =>
    obtain ⟨hraw, hdrop⟩ := of_drop_cons hdrop
    intro r hr hholds
    rcases List.mem_append.mp hr with hr | hr
    · exact effect.lone hraw r hr hholds
    · exact ih hdrop r hr hholds

/-- A line whose record takes the label of an earlier line: it has no label of its own, and no label
and no area comes between. -/
structure Takes (all : List (List Char)) (i j : Nat) : Prop where
  lt : i < j
  record : ∃ raw, all[j]? = some raw ∧ lineKind raw = .record ∧ lineLabel raw = none
  between {k : Nat} {raw : List Char} (hi : i < k) (hj : k < j) (hraw : all[k]? = some raw) :
    Passive raw

variable {i : Nat} {name : String}

theorem not_takes (hraw : all[n]? = some raw) (hi : i < n) (hpassive : ¬Passive raw)
    (hrecord : ¬(lineKind raw = .record ∧ lineLabel raw = none)) {j : Nat} (hj : n ≤ j) :
    ¬Takes all i j := by
  intro h
  rcases Nat.lt_or_eq_of_le hj with hlt | rfl
  · exact hpassive (h.between hi hlt hraw)
  · obtain ⟨raw', hraw', hkind⟩ := h.record
    cases hraw.symm.trans hraw'
    exact hrecord hkind

/-- What becomes of a label that waits. -/
structure Settled (all : List (List Char)) (n i : Nat) (name : String) (rs : List Record) :
    Prop where
  taken {j : Nat} (hj : n ≤ j) (h : Takes all i j) : ∃ r ∈ rs, r.line = j ∧ r.label = some name
  alone (h : ∀ j, ¬Takes all i j) : loneLabel name i ∈ rs

theorem Settled.of_alone (hraw : all[n]? = some raw) (hi : i < n) (hpassive : ¬Passive raw)
    (hrecord : ¬(lineKind raw = .record ∧ lineLabel raw = none)) (hmem : loneLabel name i ∈ rs) :
    Settled all n i name rs where
  taken hj h := absurd h (not_takes hraw hi hpassive hrecord hj)
  alone _ := hmem

theorem Recorded.settled (h : Recorded n pending lines rs) (hdrop : all.drop n = lines)
    (hp : pending = some (name, i)) (hi : i < n)
    (hpass : ∀ k raw, i < k → k < n → all[k]? = some raw → Passive raw) :
    Settled all n i name rs := by
  induction h with
  | nil =>
    subst hp
    constructor
    · intro j hj h
      obtain ⟨raw, hraw, _⟩ := h.record
      have hlt := (List.getElem?_eq_some_iff.mp hraw).1
      have hle := List.drop_eq_nil_iff.mp hdrop
      omega
    · intro _
      exact List.mem_singleton_self _
  | @cons n pending pending' raw lines xs rs effect rest ih =>
    subst hp
    obtain ⟨hraw, hdrop⟩ := of_drop_cons hdrop
    have hlone : loneLabel name i ∈ waiting (some (name, i)) := List.mem_singleton_self _
    cases effect with
    | pass passive =>
      have hpass' (k : Nat) (raw' : List Char) (hik : i < k) (hkn : k < n + 1)
          (hraw' : all[k]? = some raw') : Passive raw' := by
        rcases Nat.lt_or_eq_of_le (Nat.le_of_lt_succ hkn) with hlt | rfl
        · exact hpass k raw' hik hlt hraw'
        · cases hraw.symm.trans hraw'
          exact passive
      have hsettled := ih hdrop rfl (Nat.lt_succ_of_lt hi) hpass'
      constructor
      · intro j hj h
        rcases Nat.lt_or_eq_of_le hj with hlt | rfl
        · exact hsettled.taken hlt h
        · obtain ⟨raw', hraw', hkind, _⟩ := h.record
          cases hraw.symm.trans hraw'
          exact absurd hkind passive.ne_record
      · exact hsettled.alone
    | mark mark =>
      apply Settled.of_alone hraw hi (not_passive_of_mark mark)
      · intro h
        exact ne_record_of_mark mark h.1
      · exact List.mem_append_left _ hlone
    | take kind label ops =>
      constructor
      · intro j hj h
        rcases Nat.lt_or_eq_of_le hj with hlt | rfl
        · exact absurd kind (h.between hi hlt hraw).ne_record
        · exact ⟨_, List.mem_cons_self, rfl, rfl⟩
      · intro h
        have hbetween {k : Nat} {raw' : List Char} (hik : i < k) (hkn : k < n)
            (hraw' : all[k]? = some raw') : Passive raw' := hpass k raw' hik hkn hraw'
        exact absurd ⟨hi, ⟨raw, hraw, kind, label⟩, hbetween⟩ (h n)
    | own kind label ops =>
      apply Settled.of_alone hraw hi
      · intro h
        exact h.ne_record kind
      · intro h
        rw [h.2] at label
        cases label
      · exact List.mem_append_left _ (List.mem_append_left _ hlone)
    | area kind label =>
      apply Settled.of_alone hraw hi
      · intro h
        exact h.ne_area kind
      · intro h
        rw [h.1] at kind
        cases kind
      · exact List.mem_append_left _ hlone

theorem Recorded.rest_of_mark (h : Recorded n pending lines rs) (hdrop : all.drop n = lines)
    (hi : n ≤ i) (hraw : all[i]? = some raw) (hmark : lineMark raw = some name) :
    ∃ rs', Recorded (i + 1) (some (name, i)) (all.drop (i + 1)) rs' ∧ ∀ r ∈ rs', r ∈ rs := by
  induction h with
  | @nil n pending =>
    have hlt := (List.getElem?_eq_some_iff.mp hraw).1
    have hle := List.drop_eq_nil_iff.mp hdrop
    omega
  | @cons n pending pending' raw' lines xs rs effect rest ih =>
    obtain ⟨hraw', hrest⟩ := of_drop_cons hdrop
    rcases Nat.lt_or_eq_of_le hi with hlt | rfl
    · obtain ⟨rs', hrecorded, hmem⟩ := ih hrest hlt
      exact ⟨rs', hrecorded, fun r hr => List.mem_append_right _ (hmem r hr)⟩
    · cases hraw.symm.trans hraw'
      rw [hrest]
      cases effect with
      | pass passive => exact absurd passive (not_passive_of_mark hmark)
      | mark mark =>
        cases hmark.symm.trans mark
        exact ⟨rs, rest, fun r hr => List.mem_append_right _ hr⟩
      | take kind label ops => exact absurd kind (ne_record_of_mark hmark)
      | own kind label ops => exact absurd kind (ne_record_of_mark hmark)
      | area kind label => exact absurd kind (ne_of_lineMark hmark (by decide) (by decide))

def areasAfter (all : List (List Char)) (k : Nat) : Nat :=
  (all.drop (k + 1)).countP (lineKind · = .area)

variable {areas : List Area}

theorem Transcript.length_areas (h : Transcript n pending lines rs areas) :
    areas.length = lines.countP (lineKind · = .area) := by
  induction h with
  | nil => rfl
  | line kind effect rest ih => rw [ih, List.countP_cons_of_neg (by simpa using kind)]
  | area kind effect rest ih =>
    rw [List.length_cons, ih, List.countP_cons_of_pos (by simpa using kind)]

/-- The number of areas behind that of a record is the number of those that open after its line. -/
theorem Transcript.areasAfter_line (h : Transcript n pending lines rs areas)
    (hdrop : all.drop n = lines)
    (hp : ∀ e, pending = some e → areasAfter all e.2 = lines.countP (lineKind · = .area)) :
    (∀ r ∈ rs, areasAfter all r.line = areas.length) ∧
    ∀ k a, areas[k]? = some a → ∀ r ∈ a.records, k + 1 + areasAfter all r.line = areas.length := by
  have hwaiting {pending : Option (String × Nat)} {m : Nat}
      (hp : ∀ e, pending = some e → areasAfter all e.2 = m) :
      ∀ r ∈ waiting pending, areasAfter all r.line = m := by
    intro r hr
    obtain ⟨e, he, rfl⟩ := mem_waiting pending hr
    exact hp e he
  induction h with
  | nil =>
    refine ⟨hwaiting hp, ?_⟩
    intro k a ha
    cases ha
  | @line n pending pending' raw lines xs rs areas kind effect rest ih =>
    obtain ⟨_, hrest⟩ := of_drop_cons hdrop
    rw [List.countP_cons_of_neg (by simpa using kind)] at hp
    -- What the line adds, and the label that waits after it, come from this line or waited before.
    have hline (k : Nat) (hk : k ∈ xs.map (·.line) ++ (pending'.map (·.2)).toList) :
        areasAfter all k = lines.countP (lineKind · = .area) := by
      rcases List.mem_append.mp (effect.line_sublist.subset hk) with hk | hk
      · obtain ⟨e, he, rfl⟩ := Option.map_eq_some_iff.mp (Option.mem_toList.mp hk)
        exact hp e he
      · cases List.mem_singleton.mp hk
        rw [areasAfter, hrest]
    have hpending (e : String × Nat) (he : pending' = some e) :
        areasAfter all e.2 = lines.countP (lineKind · = .area) := by
      apply hline
      rw [he]
      exact List.mem_append_right _ (List.mem_singleton_self _)
    obtain ⟨hopen, hothers⟩ := ih hrest hpending
    refine ⟨?_, hothers⟩
    intro r hr
    rcases List.mem_append.mp hr with hr | hr
    · rw [rest.length_areas]
      exact hline _ (List.mem_append_left _ (List.mem_map_of_mem hr))
    · exact hopen r hr
  | @area n pending raw lines a areas kind effect rest ih =>
    obtain ⟨_, hrest⟩ := of_drop_cons hdrop
    obtain ⟨hfirst, hothers⟩ := ih hrest (by intro e he; cases he)
    rw [List.countP_cons_of_pos (by simpa using kind), ← rest.length_areas] at hp
    refine ⟨hwaiting hp, ?_⟩
    intro k b hb r hr
    cases k with
    | zero =>
      cases hb
      rw [hfirst r hr, List.length_cons]
      omega
    | succ k =>
      have hcount := hothers k b hb r hr
      rw [List.length_cons]
      omega

end Holds

structure ConstantOf (e : List Char × Nat) (c : Constant) : Prop where
  name : lineLabel e.1 = some c.name
  value : ∃ operand, lineOperands e.1 = some [operand] ∧
    Operand.number? (String.ofList (dropHashes operand.toList)) = some c.value
  line : c.line = e.2

theorem constants_flush (d : Draft) : d.flush.program.constants = d.program.constants := by
  unfold Draft.flush
  cases d.pending with
  | none => rfl
  | some entry => rfl

theorem constants_addRecord (d : Draft) (label : Option String) (mnemonic : String)
    (operands : List String) (line : Nat) :
    (d.addRecord label mnemonic operands line).program.constants = d.program.constants := by
  cases label with
  | none => rfl
  | some name => exact constants_flush d

theorem constants_of_tellsAll {add : Draft → Nat × Statement → Draft}
    (hadd : ∀ d s, add d s = d.add s.1 s.2) {ss : List (Nat × Statement)} (h : TellsAll n lines ss)
    (d : Draft) :
    ∃ cs, (ss.foldl add d).flush.program.constants = d.program.constants ++ cs ∧
      List.Forall₂ ConstantOf ((lines.zipIdx n).filter (lineKind ·.1 = .constant)) cs := by
  induction h generalizing d with
  | nil => exact ⟨[], (constants_flush d).trans (List.append_nil _).symm, .nil⟩
  | @cons n raw s lines ss tells rest ih =>
    obtain ⟨cs, hconstants, hforall⟩ := ih (d.add n s)
    rw [List.foldl_cons, hadd, hconstants, List.zipIdx_cons]
    have hother (hkind : lineKind raw ≠ .constant)
        (hsame : (d.add n s).program.constants = d.program.constants) :
        ∃ cs', (d.add n s).program.constants ++ cs = d.program.constants ++ cs' ∧
          List.Forall₂ ConstantOf
            (((raw, n) :: lines.zipIdx (n + 1)).filter (lineKind ·.1 = .constant)) cs' := by
      rw [hsame, List.filter_cons_of_neg (by simpa using hkind)]
      exact ⟨cs, rfl, hforall⟩
    cases tells with
    | @constant name operand value kind label operands number =>
      rw [List.filter_cons_of_pos (by simpa using kind)]
      refine ⟨⟨name, value, n⟩ :: cs, List.append_assoc _ _ _, .cons ?_ hforall⟩
      exact ⟨label, ⟨operand, operands, number⟩, rfl⟩
    | blank kind label => exact hother (by rw [kind]; decide) rfl
    | label kind label => exact hother (by rw [kind]; decide) (constants_flush d)
    | record kind operands =>
      exact hother (by rw [kind]; decide) (constants_addRecord d _ _ _ _)
    | area kind label records => exact hother (by rw [kind]; decide) (constants_flush d)
    | finish kind =>
      apply hother (by rw [kind]; decide)
      cases lineLabel raw with
      | none => rfl
      | some name => exact constants_flush d

theorem exists_of_mem {α β : Type} {R : α → β → Prop} {l : List α} {l' : List β}
    (h : List.Forall₂ R l l') {a : α} (ha : a ∈ l) : ∃ b ∈ l', R a b := by
  induction h with
  | nil => cases ha
  | cons hab _ ih =>
    rcases List.mem_cons.mp ha with rfl | ha
    · exact ⟨_, .head _, hab⟩
    · obtain ⟨b, hb, hab⟩ := ih ha
      exact ⟨b, .tail _ hb, hab⟩

/-- A program that has what lines hold, and nothing else. -/
structure Transcribes (lines : List (List Char)) (p : Program) : Prop where
  /-- Every instruction and every data directive has one record, in order. -/
  records : List.Forall₂ RecordOf (lines.zipIdx.filter (lineKind ·.1 = .record))
    (p.records.filter (holdsRecord lines ·.line))
  others : ∀ r ∈ p.records, holdsRecord lines r.line = false → ∃ name, r = loneLabel name r.line
  constants : List.Forall₂ ConstantOf (lines.zipIdx.filter (lineKind ·.1 = .constant)) p.constants
  labels : p.records.filterMap (·.label) =
    (lines.filter (lineKind · ≠ .constant)).filterMap lineLabel
  ordered : p.records.Pairwise (·.line < ·.line)
  /-- As many areas come after that of a record as open after its line. -/
  area : ∀ k a, p.areas[k]? = some a → ∀ r ∈ a.records,
    k + 1 + areasAfter lines r.line = p.areas.length
  taken : ∀ i j raw name, lines[i]? = some raw → lineMark raw = some name → Takes lines i j →
    ∃ r ∈ p.records, r.line = j ∧ r.label = some name
  alone : ∀ i raw name, lines[i]? = some raw → lineMark raw = some name →
    (∀ j, ¬Takes lines i j) → loneLabel name i ∈ p.records

theorem transcript_of_build {ss : List (Nat × Statement)} (h : TellsAll 0 lines ss) :
    ∃ rs areas, Transcript 0 none lines rs areas ∧
      (build ss).areas =
        (if rs = [] then [] else [{ Draft.defaultArea with records := rs }]) ++ areas ∧
      (build ss).records = rs ++ areas.flatMap (·.records) := by
  obtain ⟨rs, areas, htranscript, hareas⟩ := transcript_of_tellsAll (fun _ _ => rfl) h {}
  have hbuild : (build ss).areas =
      (if rs = [] then [] else [{ Draft.defaultArea with records := rs }]) ++ areas := by
    rw [← Draft.foldl_pushInto_nil]
    exact hareas
  refine ⟨rs, areas, htranscript, hbuild, ?_⟩
  rw [Program.records, hbuild, List.flatMap_append]
  split
  case isTrue hnil => rw [hnil]; rfl
  case isFalse => rw [List.flatMap_singleton]

theorem recorded_of_build {ss : List (Nat × Statement)} (h : TellsAll 0 lines ss) :
    Recorded 0 none lines (build ss).records := by
  obtain ⟨rs, areas, htranscript, _, hrecords⟩ := transcript_of_build h
  rw [hrecords]
  exact htranscript.recorded

theorem transcribes_of_tellsAll {ss : List (Nat × Statement)} (h : TellsAll 0 lines ss) :
    Transcribes lines (build ss) := by
  obtain ⟨rs, areas, htranscript, hbuild, hrecords⟩ := transcript_of_build h
  obtain ⟨cs, hconstants, hforall⟩ := constants_of_tellsAll (fun _ _ => rfl) h {}
  have hrecorded := htranscript.recorded
  have hsettled {i : Nat} {raw : List Char} {name : String} (hraw : lines[i]? = some raw)
      (hmark : lineMark raw = some name) : Settled lines (i + 1) i name (build ss).records := by
    obtain ⟨rs', hrest, hmem⟩ := hrecorded.rest_of_mark rfl (Nat.zero_le i) hraw hmark
    have hlocal := hrest.settled rfl rfl (Nat.lt_succ_self i) (by omega)
    rw [hrecords]
    constructor
    · intro j hj h
      obtain ⟨r, hr, hline⟩ := hlocal.taken hj h
      exact ⟨r, hmem r hr, hline⟩
    · intro h
      exact hmem _ (hlocal.alone h)
  constructor
  case records =>
    rw [hrecords]
    exact hrecorded.records rfl (by intro e he; cases he)
  case others =>
    rw [hrecords]
    exact hrecorded.lone rfl
  case constants =>
    have hall : (build ss).constants = cs := hconstants
    rwa [hall]
  case labels =>
    rw [hrecords]
    exact hrecorded.labels
  case ordered =>
    rw [hrecords, ← List.pairwise_map]
    exact List.Pairwise.sublist hrecorded.line_sublist List.pairwise_lt_range'
  case area =>
    obtain ⟨hopen, hothers⟩ := htranscript.areasAfter_line rfl (by intro e he; cases he)
    rw [hbuild]
    intro k a ha r hr
    split at ha
    case isTrue hnil =>
      rw [if_pos hnil]
      exact hothers k a ha r hr
    case isFalse hne =>
      rw [if_neg hne, List.length_append, List.length_singleton]
      cases k with
      | zero =>
        cases ha
        rw [hopen r hr, Nat.add_comm]
      | succ k =>
        have hcount := hothers k a ha r hr
        omega
  case taken =>
    intro i j raw name hraw hmark h
    exact (hsettled hraw hmark).taken h.lt h
  case alone =>
    intro i raw name hraw hmark h
    exact (hsettled hraw hmark).alone h

/-- A program is the transcript of the lines of its source up to the end: no label, statement or
constant is lost, doubled or moved. -/
theorem parse_transcribes (source : String) (p : Program) (hp : parse source = .ok p) :
    Transcribes (toEnd (Text.lines source.toList)) p := by
  obtain ⟨ss, hss, rfl⟩ := map_ok_iff.mp hp
  exact transcribes_of_tellsAll (tellsAll_of_statements hss)

/-- A label that waits over a constant for its record, one that another label leaves to itself, one
before an area, one on an ignored directive, and one at the end. -/
theorem parse_transcribes_labels :
    let source := "a\nn EQU 5\n\n movs r0, #n ; first\nb:\nc nop\nd\n AREA vars, DATA\n" ++
      "e EXPORT main\n dcd a, d\nf END\n nonsense\n"
    ∃ p, parse source = .ok p ∧ Transcribes (toEnd (Text.lines source.toList)) p ∧
      p.areas.map (·.records) =
        [[⟨some "a", "MOVS", ["r0", "#n"], 3⟩, loneLabel "b" 4, ⟨some "c", "NOP", [], 5⟩,
          loneLabel "d" 6], [⟨some "e", "DCD", ["a", "d"], 9⟩, loneLabel "f" 10]] ∧
      p.constants = [⟨"n", 5, 1⟩] := by
  intro source
  have hcheck : (parse source).toOption.map (fun p => (p.areas.map (·.records), p.constants)) =
      some ([[⟨some "a", "MOVS", ["r0", "#n"], 3⟩, loneLabel "b" 4, ⟨some "c", "NOP", [], 5⟩,
        loneLabel "d" 6], [⟨some "e", "DCD", ["a", "d"], 9⟩, loneLabel "f" 10]],
        [⟨"n", 5, 1⟩]) := by
    decide +kernel
  cases hparse : parse source with
  | error e =>
    rw [hparse] at hcheck
    cases hcheck
  | ok p =>
    rw [hparse] at hcheck
    obtain ⟨hrecords, hconstants⟩ := Prod.mk.inj (Option.some.inj hcheck)
    exact ⟨p, rfl, parse_transcribes source p hparse, hrecords, hconstants⟩

end Source

end Thumb

import Thumb.Proofs.Draft

namespace Thumb

namespace Object

/-- An object with a section for each area. -/
structure WellFormed (areas : List Area) (o : Object) : Prop where
  /-- Sections have the names and the kinds of the areas. -/
  areas : o.sections.map (fun s => (s.name, s.kind)) = areas.map fun a => (a.name, a.kind)
  /-- Each section starts where the previous one ended. -/
  offset : ∀ k s, o.sections[k]? = some s → s.offset = ((o.sections.take k).map (·.size)).sum
  /-- The last one ends with the content. -/
  size : (o.sections.map (·.size)).sum = o.content.length
  relocation : ∀ r ∈ o.relocations,
    r.Sound ∧ ∃ s, o.sections[r.index]? = some s ∧ r.offset + r.length ≤ s.size
  disjoint : o.relocations.Pairwise Relocation.Before
  symbol : ∀ name base value, (name, Symbol.address base value) ∈ o.symbols.entries →
    ∃ k s, base = some k ∧ o.sections[k]? = some s ∧ 0 ≤ value ∧ value ≤ s.size
  mark : ∀ m ∈ o.marks, ∃ s, o.sections[m.index]? = some s ∧ m.offset ≤ s.size
  ordered : o.marks.Pairwise fun m m' => m.index = m'.index → m.offset ≤ m'.offset

namespace WellFormed

variable {areas : List Area} {o : Object}

theorem empty : ({} : Object).WellFormed [] where
  areas := rfl
  offset _ _ h := by cases h
  size := rfl
  relocation := nofun
  disjoint := .nil
  symbol := nofun
  mark := nofun
  ordered := .nil

theorem length_sections (h : o.WellFormed areas) : o.sections.length = areas.length := by
  have hlen := congrArg List.length h.areas
  rwa [List.length_map, List.length_map] at hlen

theorem end_le (h : o.WellFormed areas) {k : Nat} {s : Section} (hs : o.sections[k]? = some s) :
    s.offset + s.size ≤ o.content.length := by
  obtain ⟨hk, rfl⟩ := List.getElem?_eq_some_iff.mp hs
  have hsplit : o.sections.take k ++ o.sections[k] :: o.sections.drop (k + 1) = o.sections := by
    rw [List.cons_getElem_drop_succ, List.take_append_drop]
  have hsum := h.size
  rw [← hsplit, List.map_append, List.sum_append, List.map_cons, List.sum_cons] at hsum
  rw [h.offset k _ hs]
  omega

theorem kind_eq (h : o.WellFormed areas) {k : Nat} {a : Area} {s : Section}
    (ha : areas[k]? = some a) (hs : o.sections[k]? = some s) : s.kind = a.kind := by
  have hk := congrArg (·[k]?) h.areas
  simp only [List.getElem?_map, ha, hs, Option.map_some, Option.some.injEq, Prod.mk.injEq] at hk
  exact hk.2

theorem index_lt_of_relocation (h : o.WellFormed areas) {r : Relocation} (hr : r ∈ o.relocations) :
    r.index < o.sections.length := by
  obtain ⟨_, s, hs, _⟩ := h.relocation r hr
  exact (List.getElem?_eq_some_iff.mp hs).1

theorem index_lt_of_mark (h : o.WellFormed areas) {m : Mark} (hm : m ∈ o.marks) :
    m.index < o.sections.length := by
  obtain ⟨s, hs, _⟩ := h.mark m hm
  exact (List.getElem?_eq_some_iff.mp hs).1

end WellFormed

namespace Draft

variable {d d' : Draft} {areas : List Area}

theorem constant_wellFormed {c : Constant} (h : d.constant c = .ok d')
    (hd : d.object.WellFormed areas) : d'.object.WellFormed areas := by
  simp only [constant, bind_ok_iff, define_eq_ok] at h
  obtain ⟨_, ⟨_, rfl⟩, h⟩ := h
  cases h
  refine { hd with symbol := ?_ }
  intro name base value hmem
  rcases Table.mem_insertInto hmem with heq | hmem
  · cases heq
  · exact hd.symbol name base value hmem

theorem sections_finish {lines : List Nat} (h : d.Extends lines d') (a : Area) :
    (d'.finish a).object.sections =
      d.object.sections ++ [⟨a.kind, a.name, d.object.content.length, d'.bytes.length⟩] := by
  rw [← h.sections, ← h.content]
  rfl

theorem getElem?_finish_of_some {lines : List Nat} (h : d.Extends lines d') (a : Area) {k : Nat}
    {s : Section} (hs : d.object.sections[k]? = some s) :
    (d'.finish a).object.sections[k]? = some s := by
  rw [sections_finish h a]
  exact List.getElem?_append_left (List.getElem?_eq_some_iff.mp hs).1 ▸ hs

theorem getElem?_finish_index {lines : List Nat} (h : d.Extends lines d') (a : Area) :
    (d'.finish a).object.sections[d.index]? =
      some ⟨a.kind, a.name, d.object.content.length, d'.bytes.length⟩ := by
  rw [sections_finish h a]
  exact List.getElem?_concat_length

theorem finish_wellFormed {lines : List Nat} (h : d.Extends lines d')
    (hd : d.object.WellFormed areas) (a : Area) :
    (d'.finish a).object.WellFormed (areas ++ [a]) := by
  have hsections := sections_finish h a
  have hnew := getElem?_finish_index h a
  obtain ⟨rs, hrs, hrin, hrpair⟩ := h.relocations
  obtain ⟨ms, hms, _, hmin, hmpair⟩ := h.marks
  constructor
  case areas =>
    rw [hsections, List.map_append, List.map_append, hd.areas]
    rfl
  case offset =>
    -- A section is an old one, or the new one behind them.
    intro k s hs
    rw [hsections, List.getElem?_append] at hs
    split at hs
    case isTrue hk =>
      rw [hsections, List.take_append_of_le_length hk.le]
      exact hd.offset k s hs
    case isFalse hk =>
      have hk : k = d.object.sections.length := by
        have := (List.getElem?_eq_some_iff.mp hs).1
        rw [List.length_singleton] at this
        omega
      subst hk
      rw [Nat.sub_self] at hs
      cases hs
      rw [hsections, List.take_left]
      exact hd.size.symm
  case size =>
    have hcontent : (d'.finish a).object.content = d.object.content ++ d'.bytes := by
      rw [← h.content]
      rfl
    rw [hsections, hcontent, List.map_append, List.sum_append, hd.size, List.length_append]
    rfl
  case relocation =>
    intro r hr
    rw [show (d'.finish a).object.relocations = _ from hrs] at hr
    rcases List.mem_append.mp hr with hr | hr
    · obtain ⟨hsound, s, hs, hle⟩ := hd.relocation r hr
      exact ⟨hsound, s, getElem?_finish_of_some h a hs, hle⟩
    · obtain ⟨hsound, hin⟩ := hrin r hr
      exact ⟨hsound, _, hin.index ▸ hnew, hin.high⟩
  case disjoint =>
    rw [show (d'.finish a).object.relocations = _ from hrs, List.pairwise_append]
    refine ⟨hd.disjoint, hrpair, ?_⟩
    intro r hr r' hr'
    rw [Relocation.Before, (hrin r' hr').2.index]
    exact .inl (hd.index_lt_of_relocation hr)
  case symbol =>
    intro name base value hmem
    rcases h.symbols _ hmem with hmem | ⟨n, heq, hle⟩
    · obtain ⟨k, s, hk, hs, hvalue⟩ := hd.symbol name base value hmem
      exact ⟨k, s, hk, getElem?_finish_of_some h a hs, hvalue⟩
    · cases heq
      exact ⟨_, _, rfl, hnew, Int.natCast_nonneg n, Int.ofNat_le.mpr hle⟩
  case mark =>
    intro m hm
    rw [show (d'.finish a).object.marks = _ from hms] at hm
    rcases List.mem_append.mp hm with hm | hm
    · obtain ⟨s, hs, hle⟩ := hd.mark m hm
      exact ⟨s, getElem?_finish_of_some h a hs, hle⟩
    · have hin := hmin m hm
      exact ⟨_, hin.index ▸ hnew, hin.high⟩
  case ordered =>
    rw [show (d'.finish a).object.marks = _ from hms, List.pairwise_append]
    refine ⟨hd.ordered, hmpair.imp ?_, ?_⟩
    · intro m m' hle _
      exact hle
    · intro m hm m' hm' heq
      have hlt := hd.index_lt_of_mark hm
      rw [heq, (hmin m' hm').index] at hlt
      exact (Nat.lt_irrefl _ hlt).elim

theorem area_wellFormed {a : Area} (h : d.area a = .ok d') (hd : d.object.WellFormed areas) :
    d'.object.WellFormed (areas ++ [a]) := by
  obtain ⟨d₁, d₂, hrecords, hpool, rfl⟩ := area_cases h
  exact finish_wellFormed ((records_extends hrecords).trans hpool) hd a

theorem areas_wellFormed {more : List Area} (h : more.foldlM area d = .ok d')
    (hd : d.object.WellFormed areas) : d'.object.WellFormed (areas ++ more) := by
  induction more generalizing d areas with
  | nil =>
    cases h
    rw [List.append_nil]
    exact hd
  | cons a more ih =>
    obtain ⟨d₁, ha, h⟩ := bind_ok_iff.mp h
    rw [List.append_cons]
    exact ih h (area_wellFormed ha hd)

/-- Before the areas, a draft has symbols only. -/
theorem constants_wellFormed {cs : List Constant} (h : cs.foldlM constant {} = .ok d) :
    d.object.WellFormed [] :=
  foldlM_rel (R := fun d d' : Draft => d.object.WellFormed [] → d'.object.WellFormed [])
    (fun _ => id) (fun h h' => h' ∘ h) (fun _ _ _ _ => constant_wellFormed) h .empty

end Draft

theorem ofProgram_wellFormed {p : Program} {o : Object} (h : ofProgram p = .ok o) :
    o.WellFormed p.areas := by
  obtain ⟨d, hconstants, h⟩ := bind_ok_iff.mp h
  obtain ⟨d', hareas, h⟩ := bind_ok_iff.mp h
  cases h
  exact Draft.areas_wellFormed hareas (Draft.constants_wellFormed hconstants)

end Object

end Thumb

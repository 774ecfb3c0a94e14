import Thumb.Proofs.LineTable
import Thumb.Proofs.LoneArea

namespace Thumb

section Filter

variable {α β : Type} {p : α → Bool}

theorem zipIdx_filter_take (l : List α) :
    (l.zipIdx.filter (p ·.1)).map (fun e => (e.1, (l.take e.2).filter p)) =
      (l.filter p).zipIdx.map fun e => (e.1, (l.filter p).take e.2) := by
  -- From the end, since what is added there stands before nothing.
  induction l using List.reverseRecOn with
  | nil => rfl
  | append_singleton l a ih =>
    have hold : (l.zipIdx.filter (p ·.1)).map (fun e => (e.1, ((l ++ [a]).take e.2).filter p)) =
        (l.zipIdx.filter (p ·.1)).map fun e => (e.1, (l.take e.2).filter p) := by
      apply List.map_congr_left
      intro e he
      have hlt := List.snd_lt_of_mem_zipIdx (List.mem_filter.mp he).1
      rw [List.take_append_of_le_length (by omega)]
    have hnew (m : List α) : (m.zipIdx.map fun e => (e.1, (m ++ [a]).take e.2)) =
        m.zipIdx.map fun e => (e.1, m.take e.2) := by
      apply List.map_congr_left
      intro e he
      have hlt := List.snd_lt_of_mem_zipIdx he
      rw [List.take_append_of_le_length (by omega)]
    rw [List.zipIdx_append, List.filter_append, List.map_append, hold, ih, List.filter_append]
    cases ha : p a with
    | false => simp [ha]
    | true => simp [ha, List.zipIdx_append, hnew]

variable {l l' : List α} (h : l'.filter p = l.filter p)

include h

theorem map_zipIdx_filter (f f' : Nat → β)
    (hf : ∀ i i' a, l[i]? = some a → l'[i']? = some a → p a = true →
      (l'.take i').filter p = (l.take i).filter p → f' i' = f i) :
    (l'.zipIdx.filter (p ·.1)).map (fun e => f' e.2) =
      (l.zipIdx.filter (p ·.1)).map fun e => f e.2 := by
  have hkeys := zipIdx_filter_take (p := p) l'
  rw [h, ← zipIdx_filter_take l] at hkeys
  apply List.ext_getElem?
  intro n
  have hn := congrArg (·[n]?) hkeys
  simp only [List.getElem?_map] at hn ⊢
  cases he : (l.zipIdx.filter (p ·.1))[n]? with
  | none =>
    rw [he, Option.map_none, Option.map_eq_none_iff] at hn
    rw [hn]
    rfl
  | some e =>
    rw [he, Option.map_some, Option.map_eq_some_iff] at hn
    obtain ⟨e', he', hn⟩ := hn
    obtain ⟨hsame, htake⟩ := Prod.mk.inj hn
    obtain ⟨hmem, hp⟩ := List.mem_filter.mp (List.mem_of_getElem? he)
    obtain ⟨hmem', _⟩ := List.mem_filter.mp (List.mem_of_getElem? he')
    rw [List.mem_zipIdx_iff_getElem?] at hmem hmem'
    rw [hsame] at hmem'
    rw [he', Option.map_some, Option.map_some, hf e.2 e'.2 e.1 hmem hmem' hp htake]

theorem exists_zipIdx_filter {i : Nat} {a : α} (ha : l[i]? = some a) (hp : p a = true) :
    ∃ i', l'[i']? = some a ∧ (l'.take i').filter p = (l.take i).filter p := by
  have hkeys := zipIdx_filter_take (p := p) l'
  rw [h, ← zipIdx_filter_take l] at hkeys
  have hmem : (a, i) ∈ l.zipIdx.filter (p ·.1) :=
    List.mem_filter.mpr ⟨List.mem_zipIdx_iff_getElem?.mpr ha, hp⟩
  have hkey := List.mem_map_of_mem (f := fun e : α × Nat => (e.1, (l.take e.2).filter p)) hmem
  rw [← hkeys] at hkey
  obtain ⟨e', he', heq⟩ := List.mem_map.mp hkey
  obtain ⟨hsame, htake⟩ := Prod.mk.inj heq
  obtain ⟨hmem', _⟩ := List.mem_filter.mp he'
  rw [List.mem_zipIdx_iff_getElem?, hsame] at hmem'
  exact ⟨e'.2, hmem', htake⟩

end Filter

namespace Program

/-- Programs with the same constants and, of each kind, the same areas in the same order. -/
structure Interleaves (p q : Program) : Prop where
  constants : q.constants = p.constants
  areas : ∀ kind, q.areas.filter (·.kind = kind) = p.areas.filter (·.kind = kind)

/-- An area that two programs have at the same place among those of its kind. -/
structure Matches (p q : Program) (i i' : Nat) (a : Area) : Prop where
  left : p.areas[i]? = some a
  right : q.areas[i']? = some a
  earlier : (q.areas.take i').filter (·.kind = a.kind) = (p.areas.take i).filter (·.kind = a.kind)

variable {p q : Program} {i i' j j' : Nat} {a b : Area}

theorem Matches.symm (h : p.Matches q i i' a) : q.Matches p i' i a :=
  ⟨h.right, h.left, h.earlier.symm⟩

theorem length_filter_lt {p : Program} (ha : p.areas[i]? = some a) (h : i < j) :
    ((p.areas.take i).filter (·.kind = a.kind)).length <
      ((p.areas.take j).filter (·.kind = a.kind)).length := by
  have hnext : ((p.areas.take (i + 1)).filter (·.kind = a.kind)).length =
      ((p.areas.take i).filter (·.kind = a.kind)).length + 1 := by
    rw [List.take_add_one, ha, Option.toList_some, List.filter_append,
      List.filter_cons_of_pos (by simp), List.length_append]
    rfl
  have hle := ((List.take_sublist_take_left (l := p.areas) h).filter (·.kind = a.kind)).length_le
  rw [hnext] at hle
  exact hle

theorem Matches.lt (h : p.Matches q i i' a) (h' : p.Matches q j j' b) (hkind : b.kind = a.kind)
    (hlt : i < j) : i' < j' := by
  by_contra hle
  have hless := length_filter_lt h.left hlt
  have hmore := ((List.take_sublist_take_left (l := q.areas) (Nat.le_of_not_lt hle)).filter
    (·.kind = a.kind)).length_le
  have hearlier := h'.earlier
  rw [hkind] at hearlier
  rw [h.earlier, hearlier] at hmore
  omega

namespace Interleaves

theorem symm (h : p.Interleaves q) : q.Interleaves p :=
  ⟨h.constants.symm, fun kind => (h.areas kind).symm⟩

theorem exists_matches (h : p.Interleaves q) (ha : p.areas[i]? = some a) :
    ∃ i', p.Matches q i i' a := by
  obtain ⟨i', hright, hearlier⟩ := exists_zipIdx_filter (h.areas a.kind) ha (by simp)
  exact ⟨i', ha, hright, hearlier⟩

theorem perm (h : p.Interleaves q) : q.areas.Perm p.areas := by
  have hsplit (r : Program) :
      (r.areas.filter (·.kind = .code) ++ r.areas.filter (·.kind = .data)).Perm r.areas := by
    have hdata : r.areas.filter (·.kind = .data) =
        r.areas.filter fun a => !decide (a.kind = .code) := by
      apply List.filter_congr
      intro a _
      cases a.kind <;> decide
    rw [hdata]
    exact List.filter_append_perm _ _
  have hq := (hsplit q).symm
  rw [h.areas, h.areas] at hq
  exact hq.trans (hsplit p)

theorem plain (h : p.Interleaves q) (hp : p.Plain) : q.Plain :=
  fun a ha => hp a (h.perm.mem_iff.mp ha)

theorem names (h : p.Interleaves q) : q.names.Perm p.names := by
  rw [Program.names, Program.names, h.constants]
  exact (h.perm.flatMap_right _).append_left _

end Interleaves

end Program

namespace Object

section Sections

variable {p : Program} {o : Object} {c : Draft} {i : Nat} {a : Area}

theorem sections_eq (ho : ofProgram p = .ok o)
    (hc : p.constants.foldlM Draft.constant {} = .ok c) (hplain : p.Plain) :
    o.sections.map (fun s => (s.kind, s.size)) =
      p.areas.map fun a => (a.kind, (Draft.piece c.constants a).bytes.length) := by
  have hform := ofProgram_wellFormed ho
  apply List.ext_getElem?
  intro k
  rw [List.getElem?_map, List.getElem?_map]
  cases ha : p.areas[k]? with
  | none =>
    rw [List.getElem?_eq_none_iff, ← hform.length_sections, ← List.getElem?_eq_none_iff] at ha
    rw [ha]
    rfl
  | some a =>
    obtain ⟨_, first, hholds⟩ := ofProgram_holds ho hc hplain ha
    obtain ⟨s, hs, hsize⟩ := hholds.size
    rw [hs, Option.map_some, Option.map_some, hform.kind_eq ha hs, hsize]

theorem extentBefore_eq (ho : ofProgram p = .ok o)
    (hc : p.constants.foldlM Draft.constant {} = .ok c) (hplain : p.Plain) (kind : SectionKind)
    (k : Nat) :
    o.extentBefore kind k = (((p.areas.take k).filter (·.kind = kind)).map fun a =>
      kind.extent (Draft.piece c.constants a).bytes.length).sum := by
  have hsections := congrArg (fun l => (((l.take k).filter (·.1 = kind)).map fun e =>
    kind.extent e.2).sum) (sections_eq ho hc hplain)
  simp only [← List.map_take, List.filter_map, List.map_map] at hsections
  exact hsections

theorem map_sectionsOf (ho : ofProgram p = .ok o) (kind : SectionKind) :
    (o.sectionsOf kind).map (·.2) = (p.areas.zipIdx.filter (·.1.kind = kind)).map (·.2) := by
  have hkinds := congrArg (List.map Prod.snd) (ofProgram_wellFormed ho).areas
  rw [List.map_map, List.map_map] at hkinds
  have hzip := congrArg (fun l => (l.zipIdx.filter (·.1 = kind)).map (·.2)) hkinds
  simp only [List.zipIdx_map, List.filter_map, List.map_map] at hzip
  exact hzip

end Sections

/-- Two interleavings of the same areas, with their objects. -/
structure Interleaved (p q : Program) (c : Draft) (o o' : Object) : Prop where
  plain : p.Plain
  programs : p.Interleaves q
  constants : p.constants.foldlM Draft.constant {} = .ok c
  left : ofProgram p = .ok o
  right : ofProgram q = .ok o'

namespace Interleaved

variable {p q : Program} {c : Draft} {o o' : Object} {i i' : Nat} {a : Area}

theorem symm (h : Interleaved p q c o o') : Interleaved q p c o' o where
  plain := h.programs.plain h.plain
  programs := h.programs.symm
  constants := h.programs.constants ▸ h.constants
  left := h.right
  right := h.left

section Place

variable (h : Interleaved p q c o o')

include h

theorem extentBefore_eq (kind : SectionKind) {k k' : Nat}
    (hearlier : (q.areas.take k').filter (·.kind = kind) =
      (p.areas.take k).filter (·.kind = kind)) :
    o'.extentBefore kind k' = o.extentBefore kind k := by
  rw [Object.extentBefore_eq h.symm.left h.symm.constants h.symm.plain, hearlier,
    ← Object.extentBefore_eq h.left h.constants h.plain]

theorem extent_eq (kind : SectionKind) :
    o'.extentBefore kind o'.sections.length = o.extentBefore kind o.sections.length := by
  apply h.extentBefore_eq
  rw [(ofProgram_wellFormed h.left).length_sections, (ofProgram_wellFormed h.right).length_sections,
    List.take_length, List.take_length]
  exact h.programs.areas kind

theorem addressOf_eq (hm : p.Matches q i i' a) : o'.addressOf i' = o.addressOf i := by
  obtain ⟨_, _, hholds⟩ := ofProgram_holds h.left h.constants h.plain hm.left
  obtain ⟨_, _, hholds'⟩ := ofProgram_holds h.symm.left h.symm.constants h.symm.plain hm.right
  obtain ⟨s, hs, _⟩ := hholds.size
  obtain ⟨s', hs', _⟩ := hholds'.size
  rw [Object.addressOf_eq hs, Object.addressOf_eq hs',
    (ofProgram_wellFormed h.left).kind_eq hm.left hs,
    (ofProgram_wellFormed h.right).kind_eq hm.right hs', h.extentBefore_eq a.kind hm.earlier]

theorem map_sectionsOf_eq {β : Type} (f f' : Nat → β)
    (hf : ∀ i i' a, p.Matches q i i' a → f' i' = f i) (kind : SectionKind) :
    (o'.sectionsOf kind).map (fun e => f' e.2) = (o.sectionsOf kind).map fun e => f e.2 := by
  have hmatch := map_zipIdx_filter (h.programs.areas kind) f f' (by
    intro i i' a ha ha' hkind hearlier
    cases of_decide_eq_true hkind
    exact hf i i' a ⟨ha, ha', hearlier⟩)
  have hleft := congrArg (List.map f) (map_sectionsOf h.left kind)
  have hright := congrArg (List.map f') (map_sectionsOf h.right kind)
  rw [List.map_map, List.map_map] at hleft hright
  exact hright.trans (hmatch.trans hleft.symm)

theorem sectionsOf_eq_nil (kind : SectionKind) :
    o'.sectionsOf kind = [] ↔ o.sectionsOf kind = [] := by
  have hmap := h.map_sectionsOf_eq (fun _ => ()) (fun _ => ()) (fun _ _ _ _ => rfl) kind
  rw [← List.map_eq_nil_iff, hmap, List.map_eq_nil_iff]

theorem codeSize_eq : o'.codeSize = o.codeSize := by
  rw [codeSize, codeSize, h.extent_eq]
  simp only [h.sectionsOf_eq_nil]

theorem linkedSize_eq : o'.linkedSize = o.linkedSize := by
  rw [linkedSize, linkedSize, h.codeSize_eq, h.extent_eq]

theorem blocks_eq {bytes bytes' : Nat → List Byte}
    (hbytes : ∀ i i' a, p.Matches q i i' a → bytes' i' = bytes i) (kind : SectionKind) :
    o'.blocks kind bytes' = o.blocks kind bytes := by
  have hmap := h.map_sectionsOf_eq (fun k => kind.block (bytes k)) (fun k => kind.block (bytes' k))
    (fun i i' a hm => by rw [hbytes i i' a hm]) kind
  rw [blocks, blocks, List.flatMap_def, List.flatMap_def, hmap]

theorem image_eq {bytes bytes' : Nat → List Byte}
    (hbytes : ∀ i i' a, p.Matches q i i' a → bytes' i' = bytes i) :
    o'.image bytes' = o.image bytes := by
  rw [image, image, codeImage, codeImage, h.blocks_eq hbytes, h.blocks_eq hbytes]
  simp only [h.sectionsOf_eq_nil]

end Place

end Interleaved

/-- A symbol with its address in place of that of its section. -/
def absolute (o : Object) : Symbol → Symbol
  | .constant value => .constant value
  | .address base offset => .address none (o.valueOf (.address base offset))

section Absolute

variable {o o' : Object} {name name' : String}

theorem valueOf_absolute (o o' : Object) (symbol : Symbol) :
    o'.valueOf (o.absolute symbol) = o.valueOf symbol := by
  cases symbol <;> rfl

theorem valueOf_eq {symbol symbol' : Symbol} (h : o'.absolute symbol' = o.absolute symbol) :
    o'.valueOf symbol' = o.valueOf symbol := by
  rw [← valueOf_absolute o' o', h, valueOf_absolute]

theorem map_valueOf_eq
    (h : (o'.symbols.get? name').map o'.absolute = (o.symbols.get? name).map o.absolute) :
    (o'.symbols.get? name').map o'.valueOf = (o.symbols.get? name).map o.valueOf := by
  have hvalue (o₁ : Object) : o.valueOf ∘ o₁.absolute = o₁.valueOf :=
    funext (valueOf_absolute o₁ o)
  have hmap := congrArg (Option.map o.valueOf) h
  rwa [Option.map_map, Option.map_map, hvalue, hvalue] at hmap

theorem get?_labelsAt_eq
    (h : (o'.symbols.get? name').map o'.absolute = (o.symbols.get? name).map o.absolute)
    (site : Nat) :
    (o'.labelsAt site).targets.get? name' = (o.labelsAt site).targets.get? name := by
  rw [labelsAt, labelsAt, Table.get?_filterMap, Table.get?_filterMap]
  cases hsymbol : o.symbols.get? name with
  | none =>
    rw [hsymbol, Option.map_none, Option.map_eq_none_iff] at h
    rw [h]
    rfl
  | some symbol =>
    rw [hsymbol, Option.map_some, Option.map_eq_some_iff] at h
    obtain ⟨symbol', hsymbol', h⟩ := h
    have hvalue := valueOf_eq h
    rw [hsymbol', Option.bind_some, Option.bind_some]
    cases symbol with
    | constant v =>
      cases symbol' with
      | constant v' => rfl
      | address base' offset' => cases h
    | address base offset =>
      cases symbol' with
      | constant v' => cases h
      | address base' offset' => exact congrArg (fun v => some (BitVec.ofInt 32 v)) hvalue

end Absolute

/-- The lower addresses are those of code. -/
theorem RecordAt.code_iff {p : Program} {o : Object} {i j address : Nat} {a : Area} {r : Record}
    (ho : ofProgram p = .ok o) (hsize : o.linkedSize < 0x18000000) (h : o.RecordAt p i j r address)
    (ha : p.areas[i]? = some a) : a.kind = .code ↔ address < 0x20000000 := by
  have hform := ofProgram_wellFormed ho
  obtain ⟨m, hm, _, rfl⟩ := h.mark ho
  obtain ⟨⟨a', ha', hr⟩, d, hd, _⟩ := h
  obtain ⟨_, _, hmark⟩ := ofProgram_mark ho ha' hr
  cases hm.symm.trans hmark
  obtain ⟨s, hs, hle⟩ := hform.mark _ (List.mem_of_getElem? hmark)
  rw [← hform.kind_eq ha hs]
  cases hkind : s.kind with
  | code => exact iff_of_true rfl (code_address_lt hs hkind hsize hle)
  | data =>
    have hhigh := data_address_le hs hkind
    refine iff_of_false nofun ?_
    exact Nat.not_lt.mpr (hhigh.trans (Nat.le_add_right _ _))

namespace Interleaved

variable {p q : Program} {c : Draft} {o o' : Object} {i i' : Nat} {a : Area}

section Symbols

variable (h : Interleaved p q c o o')

include h

theorem before_eq (hm : p.Matches q i i' a) {j : Nat} {d d' : Draft}
    (hd : Draft.before p i j = .ok d) (hd' : Draft.before q i' j = .ok d') :
    d'.bytes = d.bytes := by
  obtain ⟨e, he, hbytes⟩ := before_alone h.constants h.plain hm.left hd
  obtain ⟨e', he', hbytes'⟩ := before_alone h.symm.constants h.symm.plain hm.right hd'
  cases he.symm.trans he'
  rw [hbytes, hbytes']

theorem align_before_eq (hm : p.Matches q i i' a) {j : Nat} {d d' : Draft}
    (hd : Draft.before p i j = .ok d) (hd' : Draft.before q i' j = .ok d') (alignment : Nat) :
    (d'.align alignment).bytes = (d.align alignment).bytes := by
  rw [Draft.align, Draft.align, Draft.emit, Draft.emit, h.before_eq hm hd hd']

theorem symbol_eq {name : String} (hname : ∀ n, name ≠ literalLabel n) :
    (o'.symbols.get? name).map o'.absolute = (o.symbols.get? name).map o.absolute := by
  by_cases hmem : name ∈ p.names
  · rcases List.mem_append.mp hmem with hmem | hmem
    · obtain ⟨constant, hconstant, rfl⟩ := List.mem_map.mp hmem
      rw [ofProgram_constant h.left constant hconstant, ofProgram_constant h.right constant]
      · rfl
      · rw [h.programs.constants]
        exact hconstant
    · obtain ⟨a, ha, hmem⟩ := List.mem_flatMap.mp hmem
      obtain ⟨r, hr, hlabel⟩ := List.mem_filterMap.mp hmem
      obtain ⟨i, ha⟩ := List.mem_iff_getElem?.mp ha
      obtain ⟨j, hr⟩ := List.mem_iff_getElem?.mp hr
      obtain ⟨i', hm⟩ := h.programs.exists_matches ha
      obtain ⟨d, hd, _, hsymbol⟩ := ofProgram_label h.left ha hr hlabel
      obtain ⟨d', hd', _, hsymbol'⟩ := ofProgram_label h.right hm.right hr hlabel
      rw [hsymbol, hsymbol', Option.map_some, Option.map_some, absolute, absolute, valueOf, valueOf,
        h.addressOf_eq hm, h.align_before_eq hm hd hd']
  · have hnone {p : Program} {o : Object} (ho : ofProgram p = .ok o) (hmem : name ∉ p.names) :
        o.symbols.get? name = none := by
      obtain ⟨count, hdefines⟩ := ofProgram_defines ho
      rw [← Option.not_isSome_iff_eq_none]
      intro hsome
      rcases hdefines.contains_iff.mp hsome with hold | hold | hold
      · exact hmem hold
      · obtain ⟨n, _, heq⟩ := List.mem_map.mp hold
        exact hname n heq.symm
      · exact not_contains_empty name hold
    rw [hnone h.left hmem, hnone h.right (mt h.programs.names.mem_iff.mp hmem)]
    rfl

/-- What the texts of a section stand for, with their literals renumbered. -/
theorem renumber_symbol_eq (hm : p.Matches q i i' a) {first first' : Nat} {d : Draft}
    (hholds : o.Holds i first d) (hholds' : o'.Holds i' first' d) {name : String}
    (hname : Ordinary d.literals name) :
    (o'.symbols.get? (renumber first' name)).map o'.absolute =
      (o.symbols.get? (renumber first name)).map o.absolute := by
  rcases hname with hplain | ⟨n, hn, rfl⟩
  · rw [hplain.renumber, hplain.renumber]
    exact h.symbol_eq hplain.ne_literalLabel
  · rw [renumber_literalLabel, renumber_literalLabel, hholds.literal n hn, hholds'.literal n hn,
      Option.map_some, Option.map_some, absolute, absolute, valueOf, valueOf, h.addressOf_eq hm]

/-- A relocation resolves to the same bytes in matching sections. -/
theorem resolves (hm : p.Matches q i i' a) {first first' : Nat} {d : Draft}
    (hholds : o.Holds i first d) (hholds' : o'.Holds i' first' d) {r : Relocation}
    (hr : r ∈ d.object.relocations) {new : List Byte} (hnew : o.Resolves (r.moveTo i first) new) :
    o'.Resolves (r.moveTo i' first') new := by
  have htexts := hholds.tidy.target r hr
  obtain ⟨kind, index, offset, length, target, line⟩ := r
  cases target with
  | record r =>
    rw [Relocation.moveTo, Target.renumber] at hnew ⊢
    cases hnew with
    | code hencode =>
      have hsame : Form.SameTargets (some (o.labelsAt (o.addressOf i + offset)))
          (some (o'.labelsAt (o'.addressOf i' + offset))) (r.operands.map (renumber first))
          (r.operands.map (renumber first')) := by
        refine List.forall₂_map_left_iff.mpr (List.forall₂_map_right_iff.mpr
          (List.forall₂_same.mpr ?_))
        intro op hop
        have hordinary := htexts op hop
        refine ⟨hordinary.sameName _ _, ?_⟩
        have hsymbol := h.renumber_symbol_eq hm hholds hholds' hordinary.trimmed
        rw [Operand.target, Operand.target, Option.map_some, Option.map_some,
          hordinary.trimmed_renumber, hordinary.trimmed_renumber, h.addressOf_eq hm,
          get?_labelsAt_eq hsymbol]
        rfl
      obtain ⟨f, hselect, hencode⟩ := bind_ok_iff.mp hencode
      obtain ⟨hselect', hencode'⟩ := hsame.encode hselect hencode
      exact .code (bind_ok_iff.mpr ⟨f, hselect', hencode'⟩)
  | symbol name =>
    rw [Relocation.moveTo, Target.renumber] at hnew ⊢
    cases hnew with
    | data found value =>
      have hsymbol := h.renumber_symbol_eq hm hholds hholds' (htexts name (.head _))
      rw [found, Option.map_some, Option.map_eq_some_iff] at hsymbol
      obtain ⟨symbol', hfound, hsymbol⟩ := hsymbol
      refine .data hfound ?_
      rw [valueOf_eq hsymbol]
      exact value

end Symbols

section Link

variable (h : Interleaved p q c o o')

include h

theorem exists_holds (hm : p.Matches q i i' a) :
    ∃ first first', o.Holds i first (Draft.piece c.constants a) ∧
      o'.Holds i' first' (Draft.piece c.constants a) := by
  obtain ⟨_, first, hholds⟩ := ofProgram_holds h.left h.constants h.plain hm.left
  obtain ⟨_, first', hholds'⟩ := ofProgram_holds h.right h.symm.constants h.symm.plain hm.right
  exact ⟨first, first', hholds, hholds'⟩

theorem bytes_eq {bytes bytes' : Nat → List Byte} (hbytes : o.Relocated o.body o.relocations bytes)
    (hbytes' : o'.Relocated o'.body o'.relocations bytes') (hm : p.Matches q i i' a) :
    bytes' i' = bytes i := by
  obtain ⟨first, first', hholds, hholds'⟩ := h.exists_holds hm
  generalize Draft.piece c.constants a = d at hholds hholds'
  apply List.ext_getElem?
  intro position
  -- What a relocation covers is what it resolves to, and the rest is as the area has it.
  by_cases hcovered : ∃ r ∈ d.object.relocations,
      r.offset ≤ position ∧ position < r.offset + r.length
  · obtain ⟨r, hr, hlow, hhigh⟩ := hcovered
    obtain ⟨new, hnew, hinside⟩ := hbytes.inside _ (hholds.moved r hr)
    obtain ⟨new', hnew', hinside'⟩ := hbytes'.inside _ (hholds'.moved r hr)
    rw [(h.resolves hm hholds hholds' hr hnew).unique hnew', ← hinside] at hinside'
    have hposition := congrArg (·[position - r.offset]?) hinside'
    simp only [Relocation.moveTo, List.getElem?_take, List.getElem?_drop] at hposition
    rwa [if_pos (by omega), if_pos (by omega), Nat.add_sub_cancel' hlow] at hposition
  · have hfree {o : Object} {k first : Nat} (hholds : o.Holds k first d) :
        ∀ r ∈ o.relocations, ¬r.Covers k position := by
      rintro r hr ⟨hk, hlow, hhigh⟩
      obtain ⟨r', hr', rfl⟩ := hholds.relocation r hr hk
      exact hcovered ⟨r', hr', hlow, hhigh⟩
    rw [hbytes.outside i position (hfree hholds), hbytes'.outside i' position (hfree hholds'),
      hholds.body, hholds'.body]

theorem exists_link {x : Executable} (hx : o.link = .ok x) (hsize : x.content.length < 0x18000000) :
    ∃ x', o'.link = .ok x' := by
  have hform' := ofProgram_wellFormed h.right
  rw [length_of_link (ofProgram_wellFormed h.left) hx, ← h.linkedSize_eq] at hsize
  obtain ⟨bytes, hbytes, _⟩ := link_eq_ok (ofProgram_wellFormed h.left) hx
  refine Object.exists_link hform' (by omega) ?_
  intro r hr
  have hlt := hform'.index_lt_of_relocation hr
  rw [hform'.length_sections] at hlt
  obtain ⟨i, hm⟩ := h.programs.symm.exists_matches (List.getElem?_eq_getElem hlt)
  obtain ⟨first, first', hholds, hholds'⟩ := h.exists_holds hm.symm
  obtain ⟨r', hr', heq⟩ := hholds'.relocation r hr rfl
  obtain ⟨new, hnew, _⟩ := hbytes.inside _ (hholds.moved r' hr')
  rw [heq]
  exact ⟨new, h.resolves hm.symm hholds hholds' hr' hnew⟩

theorem recordAt (hm : p.Matches q i i' a) {j address : Nat} {r : Record}
    (hat : o.RecordAt p i j r address) : o'.RecordAt q i' j r address := by
  obtain ⟨⟨a', ha', hr⟩, d, hd, rfl⟩ := hat
  cases hm.left.symm.trans ha'
  obtain ⟨d', hd', _⟩ := ofProgram_mark h.right hm.right hr
  refine ⟨⟨a, hm.right, hr⟩, d', hd', ?_⟩
  rw [h.addressOf_eq hm, h.align_before_eq hm hd hd']

theorem lineAt {x x' : Executable} (hx : o.link = .ok x) (hx' : o'.link = .ok x')
    (hlength : x.content.length < 0x18000000) (hlength' : x'.content.length < 0x18000000)
    {key : Word} {line : Nat} (hline : x.lineAt key = some line) : x'.lineAt key = some line := by
  have hsize := hlength
  rw [length_of_link (ofProgram_wellFormed h.left) hx] at hsize
  obtain ⟨i, j, r, hat, hr, hlast⟩ := (lineAt_iff h.left hx hlength).mp hline
  obtain ⟨a, ha, _⟩ := hat.record
  obtain ⟨i', hm⟩ := h.programs.exists_matches ha
  refine (lineAt_iff h.right hx' hlength').mpr ⟨i', j, r, h.recordAt hm hat, hr, ?_⟩
  intro k' j₂ r₂ hat₂'
  obtain ⟨b, hb, _⟩ := hat₂'.record
  obtain ⟨k, hm₂⟩ := h.programs.symm.exists_matches hb
  have hat₂ := h.symm.recordAt hm₂ hat₂'
  -- Records at one address are of one kind, and areas of one kind keep their order.
  have hkind : b.kind = a.kind := by
    have hcode := hat.code_iff h.left hsize ha
    rw [← hat₂.code_iff h.left hsize hm₂.right] at hcode
    cases hkind : a.kind <;> cases hkind' : b.kind <;> simp [hkind, hkind'] at hcode ⊢
  rcases hlast k j₂ r₂ hat₂ with hlt | ⟨rfl, hle⟩
  · exact .inl (hm₂.symm.lt hm hkind.symm hlt)
  · refine .inr ⟨?_, hle⟩
    rcases Nat.lt_trichotomy k' i' with hlt | heq | hlt
    · exact absurd (hm₂.lt hm.symm hkind.symm hlt) (Nat.lt_irrefl _)
    · exact heq
    · exact absurd (hm.symm.lt hm₂ hkind hlt) (Nat.lt_irrefl _)

theorem symbol {x x' : Executable} (hx : o.link = .ok x) (hx' : o'.link = .ok x') (name : String) :
    x'.symbol name = x.symbol name := by
  rw [symbol_of_link (ofProgram_wellFormed h.left) hx,
    symbol_of_link (ofProgram_wellFormed h.right) hx']
  split
  case isTrue hname =>
    refine map_valueOf_eq (h.symbol_eq ?_)
    rintro n rfl
    rw [isProgramSymbol_literalLabel] at hname
    cases hname
  case isFalse => rfl

theorem link_eq {x : Executable} (hx : o.link = .ok x) (hsize : x.content.length < 0x18000000) :
    o'.link = .ok x := by
  obtain ⟨x', hx'⟩ := h.exists_link hx hsize
  obtain ⟨bytes, hbytes, heq⟩ := link_eq_ok (ofProgram_wellFormed h.left) hx
  obtain ⟨bytes', hbytes', heq'⟩ := link_eq_ok (ofProgram_wellFormed h.right) hx'
  have hcontent : x'.content = x.content := by
    rw [heq, heq']
    exact h.image_eq fun i i' a => h.bytes_eq hbytes hbytes'
  have hsegments : x'.segments = x.segments := by
    rw [heq, heq']
    show segments _ _ = segments _ _
    rw [h.codeSize_eq, h.linkedSize_eq]
  have hlines : x'.lines = x.lines := by
    apply Table.ext_get?
    intro key line
    constructor
    · exact h.symm.lineAt hx' hx (hcontent ▸ hsize) hsize
    · exact h.lineAt hx hx' hsize (hcontent ▸ hsize)
  have hsymbols : x'.symbols = x.symbols := by
    apply Table.ext_get?
    intro name value
    have hsymbol := h.symbol hx hx' name
    rw [Executable.symbol, Executable.symbol] at hsymbol
    rw [hsymbol]
  obtain ⟨segments, content, lines, symbols⟩ := x
  obtain ⟨segments', content', lines', symbols'⟩ := x'
  cases hcontent
  cases hsegments
  cases hlines
  cases hsymbols
  exact hx'

end Link

end Interleaved

theorem exists_ofProgram {p q : Program} {o : Object} (hpq : p.Interleaves q) (hp : p.Plain)
    (ho : ofProgram p = .ok o) : ∃ o', ofProgram q = .ok o' := by
  obtain ⟨c, hc, hareas⟩ := bind_ok_iff.mp ho
  obtain ⟨d, hareas, _⟩ := bind_ok_iff.mp hareas
  obtain ⟨_, hpool, _⟩ := Draft.constants_defines hc
  have hbytes := Draft.bytes_constants hc
  obtain ⟨count, hdefines, _⟩ := Draft.areas_defines hareas hpool
  have hcount := Draft.literals_areas hareas hbytes hpool hp
  have hperm := hpq.perm.flatMap_right fun a => a.records.filterMap (·.label)
  have halone : ∀ a ∈ q.areas, Draft.alone c.constants a = .ok (Draft.piece c.constants a) := by
    intro a ha
    obtain ⟨i, ha⟩ := List.mem_iff_getElem?.mp (hpq.perm.mem_iff.mp ha)
    exact (ofProgram_holds ho hc hp ha).1
  have hliterals : ∀ n < (q.areas.map fun a => (Draft.piece c.constants a).literals).sum,
      c.object.symbols.contains (literalLabel (c.literals + n)) = false := by
    intro n hn
    rw [(hpq.perm.map _).sum_nat] at hn
    exact Draft.literals_fresh hareas hpool (Nat.le_add_right _ _) (by omega)
  obtain ⟨d', hd'⟩ := Draft.areas_of_alone halone (hpq.plain hp) hbytes hpool
    (fun name hname => hdefines.fresh name (hperm.mem_iff.mp hname))
    (hperm.nodup_iff.mpr hdefines.nodup) hliterals
  refine ⟨d'.object, bind_ok_iff.mpr ⟨c, ?_, bind_ok_iff.mpr ⟨d', hd', rfl⟩⟩⟩
  rw [hpq.constants]
  exact hc

theorem link_of_interleaves {p q : Program} {x : Executable} (hpq : p.Interleaves q) (hp : p.Plain)
    (hsize : x.content.length < 0x18000000) (hx : (ofProgram p >>= link) = .ok x) :
    (ofProgram q >>= link) = .ok x := by
  obtain ⟨o, ho, hlink⟩ := bind_ok_iff.mp hx
  obtain ⟨o', ho'⟩ := exists_ofProgram hpq hp ho
  obtain ⟨c, hc, _⟩ := bind_ok_iff.mp ho
  have h : Interleaved p q c o o' := ⟨hp, hpq, hc, ho, ho'⟩
  exact bind_ok_iff.mpr ⟨o', ho', h.link_eq hlink hsize⟩

/-- It does not matter how code and data are interleaved: two programs without `$` in their labels
and operands that have the same constants and the same areas of each kind in the same order have
the same executable, or neither has one. -/
theorem link_interleaving (p q : Program) (hpq : p.Interleaves q) (hp : p.Plain) (x : Executable)
    (hsize : x.content.length < 0x18000000) :
    (ofProgram p >>= link) = .ok x ↔ (ofProgram q >>= link) = .ok x :=
  ⟨link_of_interleaves hpq hp hsize, link_of_interleaves hpq.symm (hpq.plain hp) hsize⟩

/-- Data before the code that refers to it or behind it, with a literal of its own. -/
theorem link_interleaving_literals :
    let text : Area := { name := "text", kind := .code, readOnly := true, records := [
      { label := some "start", mnemonic := "LDR", operands := ["R1", "=x"], line := 1 }] }
    let vars : Area := { name := "vars", kind := .data, readOnly := false, records := [
      { label := some "x", mnemonic := "DCD", operands := ["start"], line := 3 },
      { label := none, mnemonic := "LDR", operands := ["R2", "=n"], line := 4 }] }
    let more : Area := { name := "more", kind := .code, readOnly := true, records := [
      { label := none, mnemonic := "B", operands := ["start"], line := 6 },
      { label := none, mnemonic := "ADR", operands := ["R3", "=9"], line := 7 }] }
    let constants : List Constant := [{ name := "n", value := 5, line := 8 }]
    let p : Program := { areas := [text, vars, more], constants }
    let q : Program := { areas := [vars, text, more], constants }
    (ofProgram p).toOption ≠ (ofProgram q).toOption ∧
      ∃ x : Executable, x.content.length = 48 ∧ (ofProgram p >>= link) = .ok x ∧
        (ofProgram q >>= link) = .ok x := by
  intro text vars more constants p q
  have hpq : p.Interleaves q := by
    refine ⟨rfl, ?_⟩
    intro kind
    cases kind <;> decide +kernel
  have hp : p.Plain := by
    unfold Program.Plain Record.Plain
    decide +kernel
  have hlength : (ofProgram p >>= link).toOption.map (·.content.length) = some 48 := by
    decide +kernel
  refine ⟨by decide +kernel, ?_⟩
  cases hx : ofProgram p >>= link with
  | error e =>
    rw [hx] at hlength
    cases hlength
  | ok x =>
    rw [hx] at hlength
    have hlength : x.content.length = 48 := Option.some.inj hlength
    exact ⟨x, hlength, rfl, (link_interleaving p q hpq hp x (by omega)).mp hx⟩

end Object

end Thumb

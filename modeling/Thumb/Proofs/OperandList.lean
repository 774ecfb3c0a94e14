import Thumb.Proofs.Respelling

namespace Thumb

namespace Text

theorem trimStart_append {lead : List Char} (h : ∀ c ∈ lead, isBlank c = true) (cs : List Char) :
    trimStart (lead ++ cs) = trimStart cs :=
  List.dropWhile_append_of_pos h

theorem trimEnd_append_blank {trail : List Char} (h : ∀ c ∈ trail, isBlank c = true)
    (cs : List Char) : trimEnd (cs ++ trail) = trimEnd cs := by
  rw [trimEnd, trimEnd, List.reverse_append, List.dropWhile_append_of_pos]
  intro c hc
  exact h c (List.mem_reverse.mp hc)

theorem trim_append {lead trail : List Char} (hlead : ∀ c ∈ lead, isBlank c = true)
    (htrail : ∀ c ∈ trail, isBlank c = true) (cs : List Char) :
    trim (lead ++ (cs ++ trail)) = trim cs := by
  rw [trim, trimStart_append hlead, trim, trimStart, List.dropWhile_append, ← trimStart]
  cases hstart : trimStart cs with
  | nil =>
    have hnone : trimStart trail = [] := List.dropWhile_eq_nil_iff.mpr htrail
    rw [← trimStart, hnone]
    rfl
  | cons c rest => exact trimEnd_append_blank htrail (c :: rest)

theorem exists_trim (cs : List Char) :
    ∃ lead trail, cs = lead ++ (trim cs ++ trail) ∧ (∀ c ∈ lead, isBlank c = true) ∧
      ∀ c ∈ trail, isBlank c = true := by
  refine ⟨cs.takeWhile isBlank, ((trimStart cs).reverse.takeWhile isBlank).reverse, ?_, ?_, ?_⟩
  · rw [trim, trimEnd, ← List.reverse_append, List.takeWhile_append_dropWhile, List.reverse_reverse,
      trimStart, List.takeWhile_append_dropWhile]
  · exact fun c hc => List.mem_takeWhile_imp hc
  · exact fun c hc => List.mem_takeWhile_imp (List.mem_reverse.mp hc)

end Text

namespace Source

/-- Where reading a text has come to: how many brackets are open, and which quote. -/
structure Nesting where
  depth : Int := 0
  quote : Option Char := none
deriving DecidableEq

namespace Nesting

/-- A quote hides everything up to the next quote of its kind. -/
def after (n : Nesting) (c : Char) : Nesting :=
  match n.quote with
  | some q => if c = q then { n with quote := none } else n
  | none =>
    if c = '"' ∨ c = '\'' then { n with quote := some c }
    else if c = '[' ∨ c = '\x7b' then { n with depth := n.depth + 1 }
    else if c = ']' ∨ c = '\x7d' then { n with depth := n.depth - 1 }
    else n

def read (n : Nesting) (cs : List Char) : Nesting :=
  cs.foldl after n

/-- No bracket was closed that is not open, and no more are open than can be. -/
def Possible (n : Nesting) : Prop :=
  0 ≤ n.depth ∧ n.depth < depthLimit

instance (n : Nesting) : Decidable n.Possible :=
  inferInstanceAs (Decidable (_ ∧ _))

/-- The text closes what is open and what it opens, and no bracket that is not open. -/
def Closes (n : Nesting) (cs : List Char) : Prop :=
  (∀ before ∈ cs.inits, (n.read before).Possible) ∧ n.read cs = {}

instance (n : Nesting) (cs : List Char) : Decidable (n.Closes cs) :=
  inferInstanceAs (Decidable (_ ∧ _))

def mark (n : Nesting) : List Char → List (Char × Nesting)
  | [] => []
  | c :: cs => (c, n) :: mark (n.after c) cs

/-- A comma outside brackets and quotes. -/
def divides (x : Char × Nesting) : Bool :=
  x.1 == ',' && x.2 == {}

/-- The texts between the commas outside brackets and quotes. -/
def parts (n : Nesting) (cs : List Char) : List (List Char) :=
  ((n.mark cs).splitOnP divides).map fun part => part.map (·.1)

variable {n : Nesting} {c : Char} {cs : List Char}

theorem possible_start : Possible {} := by
  decide

theorem closes_nil : n.Closes [] ↔ n = {} := by
  simp only [Closes, read, List.inits, List.mem_singleton, forall_eq, List.foldl_nil]
  constructor
  · exact And.right
  · rintro rfl
    exact ⟨possible_start, rfl⟩

theorem closes_cons : n.Closes (c :: cs) ↔ n.Possible ∧ (n.after c).Closes cs := by
  simp [Closes, read, and_assoc]

theorem Closes.possible (h : n.Closes cs) : n.Possible :=
  h.1 [] (by simp)

theorem parts_nil : n.parts [] = [[]] :=
  rfl

theorem parts_ne_nil (n : Nesting) (cs : List Char) : n.parts cs ≠ [] := by
  rw [parts, Ne, List.map_eq_nil_iff]
  exact List.splitOnP_ne_nil _ _

theorem parts_comma (cs : List Char) : parts {} (',' :: cs) = [] :: parts {} cs := by
  have hyes : divides (',', {}) = true := by decide
  rw [parts, mark, List.splitOnP_cons_eq_if_modifyHead, if_pos hyes]
  rfl

theorem parts_cons (h : ¬(c = ',' ∧ n = {})) :
    n.parts (c :: cs) = ((n.after c).parts cs).modifyHead (c :: ·) := by
  have hno : ¬divides (c, n) = true := by
    rwa [divides, Bool.and_eq_true, beq_iff_eq, beq_iff_eq]
  rw [parts, mark, List.splitOnP_cons_eq_if_modifyHead, if_neg hno, parts]
  cases (mark (n.after c) cs).splitOnP divides with
  | nil => rfl
  | cons first rest => rfl

theorem after_quote (n : Nesting) (c : Char) : (n.after c).quote = quoteAfter n.quote c := by
  obtain ⟨depth, quote⟩ := n
  cases quote with
  | some q =>
    unfold after quoteAfter
    dsimp only
    split <;> rfl
  | none =>
    unfold after quoteAfter isQuote
    grind

section Pieces

variable {depth depth' : Nat} {quote quote' : Option Char}

theorem pieces_of_not_possible (hdepth : depth < depthLimit)
    (h : ¬(after ⟨depth, quote⟩ c).Possible) (done cs : List Char) :
    pieces depth quote done (c :: cs) = none := by
  unfold after Possible at h
  unfold pieces
  cases quote <;> grind [isQuote]

theorem pieces_of_after (h : after ⟨depth, quote⟩ c = ⟨depth', quote'⟩)
    (hdepth : depth' < depthLimit)
    (hno : ¬(c = ',' ∧ (⟨depth, quote⟩ : Nesting) = {})) (done cs : List Char) :
    pieces depth quote done (c :: cs) = pieces depth' quote' (c :: done) cs := by
  have hquote : quoteAfter quote c = quote' := by
    rw [← after_quote ⟨depth, quote⟩ c, h]
  unfold after at h
  conv_lhs => unfold pieces
  cases quote with
  | some q => grind
  | none => grind [isQuote]

/-- A text is cut if what is open and what it opens is closed, and then between its commas. -/
theorem pieces_eq_some_iff (hdepth : depth < depthLimit) {done : List Char}
    {ps : List (List Char)} :
    pieces depth quote done cs = some ps ↔
      Closes ⟨depth, quote⟩ cs ∧ ps = (parts ⟨depth, quote⟩ cs).modifyHead (done.reverse ++ ·) := by
  -- What was read since the last comma belongs to the first of the parts.
  induction cs generalizing depth quote done ps with
  | nil =>
    rw [pieces, closes_nil, parts_nil]
    cases quote <;> simp [eq_comm]
  | cons c cs ih =>
    have hpossible : Possible ⟨depth, quote⟩ := ⟨Int.natCast_nonneg _, Int.ofNat_lt.mpr hdepth⟩
    rw [closes_cons, and_iff_right hpossible]
    by_cases hdivides : c = ',' ∧ (⟨depth, quote⟩ : Nesting) = {}
    · obtain ⟨rfl, hn⟩ := hdivides
      obtain ⟨rfl, rfl⟩ : depth = 0 ∧ quote = none := by simpa using hn
      have hpieces : pieces 0 none done (',' :: cs) =
          (pieces 0 none [] cs).map (done.reverse :: ·) := rfl
      have hrest (rest : List (List Char)) :
          pieces 0 none [] cs = some rest ↔ Closes {} cs ∧ rest = parts {} cs := by
        rw [ih hdepth, hn, List.reverse_nil]
        exact Iff.of_eq (congrArg (_ ∧ rest = ·) (congrFun List.modifyHead_id (parts {} cs)))
      have hafter : after {} ',' = {} := rfl
      rw [hpieces, hn, hafter, parts_comma, Option.map_eq_some_iff]
      simp [hrest, and_assoc, eq_comm]
    · by_cases hnext : (after ⟨depth, quote⟩ c).Possible
      case neg =>
        have hno : ¬(after ⟨depth, quote⟩ c).Closes cs := fun h => hnext h.possible
        simp [pieces_of_not_possible hdepth hnext, hno]
      case pos =>
        obtain ⟨hmin, hmax⟩ := hnext
        obtain ⟨depth', hdepth'⟩ := Int.eq_ofNat_of_zero_le hmin
        have hafter : after ⟨depth, quote⟩ c = ⟨depth', (after ⟨depth, quote⟩ c).quote⟩ := by
          rw [← hdepth']
        have hlt : depth' < depthLimit := Int.ofNat_lt.mp (hdepth' ▸ hmax)
        rw [pieces_of_after hafter hlt hdivides, ih hlt, parts_cons hdivides, ← hafter,
          List.modifyHead_modifyHead]
        simp [Function.comp_def]

theorem pieces_start_iff {ps : List (List Char)} :
    pieces 0 none [] cs = some ps ↔ Closes {} cs ∧ ps = parts {} cs := by
  have hall : (parts {} cs).modifyHead (([] : List Char).reverse ++ ·) = parts {} cs :=
    congrFun List.modifyHead_id (parts {} cs)
  conv_rhs => rw [← hall]
  exact pieces_eq_some_iff (by decide)

end Pieces

theorem parts_of_no_comma (h : ',' ∉ cs) : n.parts cs = [cs] := by
  induction cs generalizing n with
  | nil => rfl
  | cons c cs ih =>
    rw [List.mem_cons, not_or] at h
    obtain ⟨hc, hcs⟩ := h
    rw [parts_cons fun hdivides => hc hdivides.1.symm, ih hcs, List.modifyHead_cons]

theorem intercalate_parts (n : Nesting) (cs : List Char) : [','].intercalate (n.parts cs) = cs := by
  induction cs generalizing n with
  | nil => rfl
  | cons c cs ih =>
    by_cases hdivides : c = ',' ∧ n = {}
    · obtain ⟨rfl, rfl⟩ := hdivides
      rw [parts_comma]
      conv_rhs => rw [← ih {}]
      obtain ⟨first, rest, h⟩ := List.exists_cons_of_ne_nil (parts_ne_nil {} cs)
      rw [h]
      simp [List.intercalate]
    · rw [parts_cons hdivides]
      conv_rhs => rw [← ih (n.after c)]
      obtain ⟨first, rest, h⟩ := List.exists_cons_of_ne_nil (parts_ne_nil (n.after c) cs)
      rw [h]
      cases rest <;> simp [List.intercalate]

theorem closes_append (h : n.Closes cs) (more : List Char) :
    n.Closes (cs ++ more) ↔ Closes {} more := by
  induction cs generalizing n with
  | nil =>
    cases closes_nil.mp h
    rfl
  | cons c cs ih =>
    obtain ⟨hdepth, h⟩ := closes_cons.mp h
    rw [List.cons_append, closes_cons, ih h]
    exact and_iff_right hdepth

theorem parts_append (h : n.parts cs = [cs]) (more : List Char) :
    n.parts (cs ++ more) = ((n.read cs).parts more).modifyHead (cs ++ ·) := by
  induction cs generalizing n with
  | nil => exact (congrFun List.modifyHead_id (n.parts more)).symm
  | cons c cs ih =>
    by_cases hdivides : c = ',' ∧ n = {}
    · obtain ⟨rfl, rfl⟩ := hdivides
      rw [parts_comma] at h
      cases h
    · obtain ⟨first, rest, hparts⟩ := List.exists_cons_of_ne_nil (parts_ne_nil (n.after c) cs)
      rw [parts_cons hdivides, hparts, List.modifyHead_cons] at h
      cases h
      rw [List.cons_append, parts_cons hdivides, ih hparts, List.modifyHead_modifyHead]
      rfl

structure Whole (cs : List Char) : Prop where
  closes : Closes {} cs
  undivided : parts {} cs = [cs]

namespace Whole

variable {cs : List Char}

theorem closes_append (h : Whole cs) (more : List Char) :
    Closes {} (cs ++ ',' :: more) ↔ Closes {} more := by
  rw [Nesting.closes_append h.closes, closes_cons]
  exact and_iff_right possible_start

theorem parts_append (h : Whole cs) (more : List Char) :
    parts {} (cs ++ ',' :: more) = cs :: parts {} more := by
  rw [Nesting.parts_append h.undivided, h.closes.2, parts_comma, List.modifyHead_cons,
    List.append_nil]

theorem intercalate {ps : List (List Char)} (h : ∀ p ∈ ps, Whole p) (hne : ps ≠ []) :
    Closes {} ([','].intercalate ps) ∧ parts {} ([','].intercalate ps) = ps := by
  induction ps with
  | nil => exact absurd rfl hne
  | cons p ps ih =>
    obtain ⟨hp, hps⟩ := List.forall_mem_cons.mp h
    cases ps with
    | nil => simpa [List.intercalate] using ⟨hp.closes, hp.undivided⟩
    | cons q ps =>
      obtain ⟨hcloses, hparts⟩ := ih hps (List.cons_ne_nil q ps)
      have hjoin : [','].intercalate (p :: q :: ps) = p ++ ',' :: [','].intercalate (q :: ps) := by
        simp [List.intercalate]
      rw [hjoin, hp.closes_append, hp.parts_append, hparts]
      exact ⟨hcloses, rfl⟩

end Whole

/-- What a text is cut into is one operand each. -/
theorem whole_of_closes (h : n.Closes cs) :
    ∃ first rest, n.parts cs = first :: rest ∧ n.Closes first ∧ n.parts first = [first] ∧
      ∀ p ∈ rest, Whole p := by
  induction cs generalizing n with
  | nil => exact ⟨[], [], rfl, h, rfl, List.forall_mem_nil _⟩
  | cons c cs ih =>
    obtain ⟨hdepth, htail⟩ := closes_cons.mp h
    by_cases hdivides : c = ',' ∧ n = {}
    · obtain ⟨rfl, rfl⟩ := hdivides
      obtain ⟨first, rest, hparts, hcloses, hfirst, hrest⟩ := ih htail
      refine ⟨[], first :: rest, ?_, closes_nil.mpr rfl, rfl, ?_⟩
      · rw [parts_comma]
        exact congrArg ([] :: ·) hparts
      · exact List.forall_mem_cons.mpr ⟨⟨hcloses, hfirst⟩, hrest⟩
    · obtain ⟨first, rest, hparts, hcloses, hfirst, hrest⟩ := ih htail
      refine ⟨c :: first, rest, ?_, closes_cons.mpr ⟨hdepth, hcloses⟩, ?_, hrest⟩
      · rw [parts_cons hdivides, hparts, List.modifyHead_cons]
      · rw [parts_cons hdivides, hfirst, List.modifyHead_cons]

theorem whole_of_mem_parts (h : Closes {} cs) {part : List Char} (hpart : part ∈ parts {} cs) :
    Whole part := by
  obtain ⟨first, rest, hparts, hcloses, hfirst, hrest⟩ := whole_of_closes h
  rw [hparts] at hpart
  exact List.forall_mem_cons.mpr ⟨⟨hcloses, hfirst⟩, hrest⟩ part hpart

theorem ne_of_isBlank (hc : Text.isBlank c = true) :
    c ∉ ['"', '\'', '[', '\x7b', ']', '\x7d', ','] := by
  intro hmem
  simp only [List.mem_cons, List.not_mem_nil, or_false] at hmem
  rcases hmem with rfl | rfl | rfl | rfl | rfl | rfl | rfl <;> cases hc

theorem after_of_not_mem (hn : OpenQuote n.quote)
    (hc : c ∉ ['"', '\'', '[', '\x7b', ']', '\x7d', ',']) : n.after c = n := by
  simp only [List.mem_cons, List.not_mem_nil, or_false, not_or] at hc
  obtain ⟨depth, quote⟩ := n
  cases quote with
  | none => simp [after, hc]
  | some q =>
    have hquote := hn q rfl
    have hcq : c ≠ q := by
      rintro rfl
      simp [isQuote, hc] at hquote
    exact if_neg hcq

theorem after_of_isBlank (hn : OpenQuote n.quote) (hc : Text.isBlank c = true) :
    n.after c = n :=
  after_of_not_mem hn (ne_of_isBlank hc)

section Blanks

variable {blanks : List Char} (hblanks : ∀ c ∈ blanks, Text.isBlank c = true)

include hblanks

theorem parts_of_blank : n.parts blanks = [blanks] := by
  apply parts_of_no_comma
  intro h
  cases hblanks ',' h

theorem whole_of_blank : Whole blanks := by
  refine ⟨?_, parts_of_blank hblanks⟩
  induction blanks with
  | nil => exact closes_nil.mpr rfl
  | cons c cs ih =>
    obtain ⟨hc, hcs⟩ := List.forall_mem_cons.mp hblanks
    rw [closes_cons, after_of_isBlank .none hc]
    exact ⟨possible_start, ih hcs⟩

theorem closes_append_blank (hn : OpenQuote n.quote) : n.Closes (cs ++ blanks) ↔ n.Closes cs := by
  induction cs generalizing n with
  | nil =>
    rw [List.nil_append, closes_nil]
    -- Blanks close nothing, so that nothing was open before them.
    constructor
    · intro h
      induction blanks with
      | nil => exact closes_nil.mp h
      | cons c cs ih =>
        obtain ⟨hc, hcs⟩ := List.forall_mem_cons.mp hblanks
        rw [closes_cons, after_of_isBlank hn hc] at h
        exact ih hcs h.2
    · rintro rfl
      exact (whole_of_blank hblanks).closes
  | cons c cs ih =>
    have hafter : OpenQuote (n.after c).quote := after_quote n c ▸ hn.after c
    rw [List.cons_append, closes_cons, closes_cons, ih hafter]

theorem parts_append_blank :
    ∃ front last, n.parts cs = front ++ [last] ∧
      n.parts (cs ++ blanks) = front ++ [last ++ blanks] := by
  induction cs generalizing n with
  | nil => exact ⟨[], [], rfl, parts_of_blank hblanks⟩
  | cons c cs ih =>
    by_cases hdivides : c = ',' ∧ n = {}
    · obtain ⟨rfl, rfl⟩ := hdivides
      obtain ⟨front, last, hparts, hmore⟩ := ih (n := {})
      refine ⟨[] :: front, last, ?_, ?_⟩
      · rw [parts_comma, hparts, List.cons_append]
      · rw [List.cons_append, parts_comma, hmore, List.cons_append]
    · obtain ⟨front, last, hparts, hmore⟩ := ih (n := n.after c)
      rw [List.cons_append, parts_cons hdivides, parts_cons hdivides, hparts, hmore]
      cases front with
      | nil => exact ⟨[], c :: last, rfl, rfl⟩
      | cons first front => exact ⟨(c :: first) :: front, last, rfl, rfl⟩

end Blanks

theorem closes_trim (cs : List Char) : Closes {} (Text.trim cs) ↔ Closes {} cs := by
  obtain ⟨lead, trail, hcs, hlead, htrail⟩ := Text.exists_trim cs
  conv_rhs => rw [hcs]
  rw [closes_append (whole_of_blank hlead).closes, closes_append_blank htrail .none]

theorem map_trim_parts (cs : List Char) :
    (parts {} (Text.trim cs)).map Text.trim = (parts {} cs).map Text.trim := by
  obtain ⟨lead, trail, hcs, hlead, htrail⟩ := Text.exists_trim cs
  have hwhole := whole_of_blank hlead
  obtain ⟨front, last, hparts, hmore⟩ :
      ∃ front last, parts {} (Text.trim cs) = front ++ [last] ∧
        parts {} (Text.trim cs ++ trail) = front ++ [last ++ trail] :=
    parts_append_blank htrail
  conv_rhs => rw [hcs, parts_append hwhole.undivided, hwhole.closes.2, hmore]
  rw [hparts]
  have hfirst (part : List Char) : Text.trim (lead ++ part) = Text.trim part := by
    simpa using Text.trim_append hlead (List.forall_mem_nil _) part
  have hlast (part : List Char) : Text.trim (part ++ trail) = Text.trim part :=
    Text.trim_append (List.forall_mem_nil _) htrail part
  cases front with
  | nil => simp [hfirst, hlast]
  | cons first front => simp [hfirst, hlast]

theorem Whole.trim (h : Whole cs) : Whole (Text.trim cs) := by
  refine ⟨(closes_trim cs).mpr h.closes, ?_⟩
  have hmap := map_trim_parts cs
  rw [h.undivided, List.map_singleton, List.map_eq_singleton_iff] at hmap
  obtain ⟨part, hpart, _⟩ := hmap
  have hjoin := intercalate_parts {} (Text.trim cs)
  rw [hpart] at hjoin ⊢
  simpa [List.intercalate] using hjoin

end Nesting

theorem trim_eq_nil_iff {cs : List Char} :
    Text.trim cs = [] ↔ ∀ c ∈ cs, Text.isBlank c = true := by
  constructor
  · intro h c hc
    by_contra hblank
    have hmem := Text.mem_trim hc (Bool.eq_false_iff.mpr hblank)
    rw [h] at hmem
    cases hmem
  · intro h
    have hstart : Text.trimStart cs = [] := List.dropWhile_eq_nil_iff.mpr h
    rw [Text.trim, hstart]
    rfl

theorem any_isEmpty_map_trim {parts : List (List Char)} :
    (parts.map Text.trim).any List.isEmpty = true ↔
      ¬∀ part ∈ parts, ¬∀ c ∈ part, Text.isBlank c = true := by
  simp only [← trim_eq_nil_iff]
  simp

theorem splitOperands_eq_some_iff {text : List Char} {ops : List String} :
    splitOperands text = some ops ↔
      (∀ c ∈ text, Text.isBlank c = true) ∧ ops = [] ∨
      Nesting.Closes {} text ∧
        (∀ part ∈ Nesting.parts {} text, ¬∀ c ∈ part, Text.isBlank c = true) ∧
        ops = (Nesting.parts {} text).map fun part => String.ofList (Text.trim part) := by
  rw [← trim_eq_nil_iff]
  by_cases hempty : Text.trim text = []
  · have hsome : splitOperands text = some [] := if_pos (List.isEmpty_iff.mpr hempty)
    have hblank := trim_eq_nil_iff.mp hempty
    have hmem : text ∈ Nesting.parts {} text := by
      rw [Nesting.parts_of_blank hblank]
      exact .head _
    rw [hsome]
    constructor
    · intro h
      cases h
      exact .inl ⟨hempty, rfl⟩
    · rintro (⟨_, rfl⟩ | ⟨_, hparts, _⟩)
      · rfl
      · exact absurd hblank (hparts text hmem)
  · have hsplit : splitOperands text =
        (pieces 0 none [] (Text.trim text)).bind fun parts =>
          if (parts.map Text.trim).any List.isEmpty then none
          else some ((parts.map Text.trim).map String.ofList) :=
      if_neg (mt List.isEmpty_iff.mp hempty)
    rw [hsplit, Option.bind_eq_some_iff]
    simp only [Nesting.pieces_start_iff, Nesting.closes_trim]
    constructor
    · rintro ⟨_, ⟨hcloses, rfl⟩, hops⟩
      rw [Nesting.map_trim_parts] at hops
      split at hops
      case isTrue => cases hops
      case isFalse hfull =>
        rw [any_isEmpty_map_trim, not_not] at hfull
        cases hops
        exact .inr ⟨hcloses, hfull, List.map_map⟩
    · rintro (⟨hnil, _⟩ | ⟨hcloses, hfull, rfl⟩)
      · exact absurd hnil hempty
      · refine ⟨_, ⟨hcloses, rfl⟩, ?_⟩
        rw [Nesting.map_trim_parts, if_neg, List.map_map]
        · rfl
        · rwa [any_isEmpty_map_trim, not_not]

theorem splitOperands_intercalate {text : List Char} {ops : List String}
    (h : splitOperands text = some ops) :
    splitOperands (",".intercalate ops).toList = some ops := by
  rcases splitOperands_eq_some_iff.mp h with ⟨_, rfl⟩ | ⟨hcloses, hfull, rfl⟩
  · rfl
  · have hjoin : (",".intercalate ((Nesting.parts {} text).map
        fun part => String.ofList (Text.trim part))).toList =
        [','].intercalate ((Nesting.parts {} text).map Text.trim) := by
      rw [String.toList_intercalate, List.map_map]
      simp [Function.comp_def]
    have hwhole : ∀ part ∈ (Nesting.parts {} text).map Text.trim, Nesting.Whole part := by
      intro part hpart
      obtain ⟨whole, hmem, rfl⟩ := List.mem_map.mp hpart
      exact (Nesting.whole_of_mem_parts hcloses hmem).trim
    obtain ⟨hcloses', hparts'⟩ :=
      Nesting.Whole.intercalate hwhole (mt List.map_eq_nil_iff.mp (Nesting.parts_ne_nil {} text))
    rw [hjoin, splitOperands_eq_some_iff, hparts']
    refine .inr ⟨hcloses', ?_, ?_⟩
    · intro part hpart
      obtain ⟨whole, hmem, rfl⟩ := List.mem_map.mp hpart
      rw [← trim_eq_nil_iff, Text.trim_trim, trim_eq_nil_iff]
      exact hfull whole hmem
    · simp [Text.trim_trim]

/-- A text is accepted as a list of operands if it is blank, or if brackets and quotes in it pair up
and no part between commas outside of them is blank. The operands are those parts, trimmed, and with
commas between them they are accepted as the same list. -/
theorem splitOperands_exact (text : List Char) :
    (∀ ops, splitOperands text = some ops ↔
      (∀ c ∈ text, Text.isBlank c = true) ∧ ops = [] ∨
      Nesting.Closes {} text ∧
        (∀ part ∈ Nesting.parts {} text, ¬∀ c ∈ part, Text.isBlank c = true) ∧
        ops = (Nesting.parts {} text).map fun part => String.ofList (Text.trim part)) ∧
    ∀ ops, splitOperands text = some ops →
      splitOperands (",".intercalate ops).toList = some ops :=
  ⟨fun _ => splitOperands_eq_some_iff, fun _ => splitOperands_intercalate⟩

/-- Brackets in brackets, a quote in the other quotes, and what would close a bracket in quotes. -/
theorem splitOperands_exact_nested :
    let text := " [R1, \x7bR2\x7d] , '\"' ,\"],\"".toList
    let ops := ["[R1, \x7bR2\x7d]", "'\"'", "\"],\""]
    splitOperands text = some ops ∧
      (Nesting.parts {} text).map String.ofList = [" [R1, \x7bR2\x7d] ", " '\"' ", "\"],\""] ∧
      splitOperands (",".intercalate ops).toList = some ops := by
  intro text ops
  have hparts : (Nesting.parts {} text).map String.ofList =
      [" [R1, \x7bR2\x7d] ", " '\"' ", "\"],\""] := by
    decide
  have htext : splitOperands text = some ops := by decide
  obtain ⟨_, hagain⟩ := splitOperands_exact text
  exact ⟨htext, hparts, hagain ops htext⟩

end Source

end Thumb

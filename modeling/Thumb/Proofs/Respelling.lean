import Thumb.Proofs.OperandValue
import Thumb.Proofs.SourceLine

namespace Thumb.Source

/-- The characters of names and numbers, and the mark before them. No text is cut there. -/
def isSolid (c : Char) : Bool :=
  Operand.isNameChar c || c == '-' || c == '#'

theorem isBlank_of_isSolid {c : Char} (h : isSolid c = true) : Text.isBlank c = false := by
  have hrange : 32 < c.toNat ∧ c.toNat < 127 := by
    simp only [isSolid, Operand.isNameChar, Char.isAlphanum, Char.isAlpha, Char.isUpper,
      Char.isLower, Char.isDigit, Bool.or_eq_true, Bool.and_eq_true, decide_eq_true_eq,
      UInt32.le_iff_toNat_le, beq_iff_eq, ge_iff_le] at h
    change ((((((65 ≤ c.toNat ∧ c.toNat ≤ 90 ∨ 97 ≤ c.toNat ∧ c.toNat ≤ 122) ∨
      48 ≤ c.toNat ∧ c.toNat ≤ 57) ∨ c = '_') ∨ c = '.') ∨ c = '$') ∨ c = '-') ∨ c = '#' at h
    rcases h with (((((h | h) | rfl) | rfl) | rfl) | rfl) | rfl
    · omega
    · omega
    all_goals decide
  unfold Text.isBlank
  grind

theorem not_isQuote_of_isSolid {c : Char} (h : isSolid c = true) : isQuote c = false := by
  rw [Bool.eq_false_iff]
  intro hquote
  rcases Bool.or_eq_true_iff.mp hquote with hc | hc
  · cases beq_iff_eq.mp hc
    cases h
  · cases beq_iff_eq.mp hc
    cases h

/-- A text with some of the names after a mark `#` replaced. A name is replaced where it ends. -/
inductive Respelled (name value : List Char) : List Char → List Char → Prop
  | nil : Respelled name value [] []
  | cons (c : Char) {cs cs' : List Char} (rest : Respelled name value cs cs') :
      Respelled name value (c :: cs) (c :: cs')
  | name {cs cs' : List Char} (ends : ∀ c ∈ cs.head?, Operand.isNameChar c = false)
      (rest : Respelled name value cs cs') :
      Respelled name value ('#' :: (name ++ cs)) ('#' :: (value ++ cs'))

theorem mem_head?_of_start {cs rest : List Char} (h : rest <+: cs) {c : Char}
    (hc : c ∈ rest.head?) : c ∈ cs.head? := by
  obtain ⟨after, rfl⟩ := h
  cases rest with
  | nil => cases hc
  | cons d rest => exact hc

namespace Respelled

variable {name value cs cs' : List Char}

theorem refl (cs : List Char) : Respelled name value cs cs := by
  induction cs with
  | nil => exact .nil
  | cons c cs ih => exact .cons c ih

theorem replace (before after : List Char)
    (ends : ∀ c ∈ after.head?, Operand.isNameChar c = false) :
    Respelled name value (before ++ '#' :: (name ++ after))
      (before ++ '#' :: (value ++ after)) := by
  induction before with
  | nil => exact .name ends (.refl after)
  | cons c before ih => exact .cons c ih

theorem head?_eq (h : Respelled name value cs cs') : cs'.head? = cs.head? := by
  cases h with
  | nil => rfl
  | cons c rest => rfl
  | name ends rest => rfl

theorem nil_iff (h : Respelled name value cs cs') : cs' = [] ↔ cs = [] := by
  rw [← List.head?_eq_none_iff, h.head?_eq, List.head?_eq_none_iff]

theorem isEmpty_eq (h : Respelled name value cs cs') : cs'.isEmpty = cs.isEmpty := by
  rw [Bool.eq_iff_iff, List.isEmpty_iff, List.isEmpty_iff, h.nil_iff]

theorem mem_hash_iff (h : Respelled name value cs cs') : '#' ∈ cs' ↔ '#' ∈ cs := by
  induction h with
  | nil => rfl
  | cons c rest ih => rw [List.mem_cons, List.mem_cons, ih]
  | name ends rest ih => exact iff_of_true (.head _) (.head _)

theorem eq_of_not_mem (h : Respelled name value cs cs') (hnone : '#' ∉ cs) : cs' = cs := by
  induction h with
  | nil => rfl
  | cons c rest ih => rw [ih fun hmem => hnone (.tail _ hmem)]
  | name ends rest ih => cases hnone (.head _)

theorem tail (h : Respelled name value cs cs') (hhead : cs.head? ≠ some '#') :
    Respelled name value cs.tail cs'.tail := by
  cases h with
  | nil => exact .nil
  | cons c rest => exact rest
  | name ends rest => cases hhead rfl

theorem dropWhile_of_hash {p : Char → Bool} (hp : p '#' = false) (h : Respelled name value cs cs') :
    Respelled name value (cs.dropWhile p) (cs'.dropWhile p) := by
  induction h with
  | nil => exact .nil
  | @cons c cs cs' rest ih =>
    cases hc : p c with
    | true =>
      rw [List.dropWhile_cons_of_pos hc, List.dropWhile_cons_of_pos hc]
      exact ih
    | false =>
      rw [List.dropWhile_cons_of_neg (by simp [hc]), List.dropWhile_cons_of_neg (by simp [hc])]
      exact .cons c rest
  | name ends rest ih =>
    rw [List.dropWhile_cons_of_neg (by simp [hp]), List.dropWhile_cons_of_neg (by simp [hp])]
    exact .name ends rest

theorem takeWhile_of_hash {p : Char → Bool} (hp : p '#' = false) (h : Respelled name value cs cs') :
    cs'.takeWhile p = cs.takeWhile p := by
  induction h with
  | nil => rfl
  | @cons c cs cs' rest ih => rw [List.takeWhile_cons, List.takeWhile_cons, ih]
  | name ends rest ih =>
    rw [List.takeWhile_cons_of_neg (by simp [hp]), List.takeWhile_cons_of_neg (by simp [hp])]

section Solid

variable (hname : ∀ c ∈ name, isSolid c = true) (hvalue : ∀ c ∈ value, isSolid c = true)

include hname hvalue

theorem takeWhile {p : Char → Bool} (hp : ∀ c, isSolid c = true → p c = true)
    (h : Respelled name value cs cs') :
    Respelled name value (cs.takeWhile p) (cs'.takeWhile p) := by
  induction h with
  | nil => exact .nil
  | @cons c cs cs' rest ih =>
    cases hc : p c with
    | true =>
      rw [List.takeWhile_cons_of_pos hc, List.takeWhile_cons_of_pos hc]
      exact .cons c ih
    | false =>
      rw [List.takeWhile_cons_of_neg (by simp [hc]), List.takeWhile_cons_of_neg (by simp [hc])]
      exact .nil
  | name ends rest ih =>
    rw [List.takeWhile_cons_of_pos (hp '#' rfl), List.takeWhile_cons_of_pos (hp '#' rfl),
      List.takeWhile_append_of_pos fun c hc => hp c (hname c hc),
      List.takeWhile_append_of_pos fun c hc => hp c (hvalue c hc)]
    exact .name (fun c hc => ends c (mem_head?_of_start (List.takeWhile_prefix p) hc)) ih

theorem dropWhile {p : Char → Bool} (hp : ∀ c, isSolid c = true → p c = true)
    (h : Respelled name value cs cs') :
    Respelled name value (cs.dropWhile p) (cs'.dropWhile p) := by
  induction h with
  | nil => exact .nil
  | @cons c cs cs' rest ih =>
    cases hc : p c with
    | true =>
      rw [List.dropWhile_cons_of_pos hc, List.dropWhile_cons_of_pos hc]
      exact ih
    | false =>
      rw [List.dropWhile_cons_of_neg (by simp [hc]), List.dropWhile_cons_of_neg (by simp [hc])]
      exact .cons c rest
  | name ends rest ih =>
    rw [List.dropWhile_cons_of_pos (hp '#' rfl), List.dropWhile_cons_of_pos (hp '#' rfl),
      List.dropWhile_append_of_pos fun c hc => hp c (hname c hc),
      List.dropWhile_append_of_pos fun c hc => hp c (hvalue c hc)]
    exact ih

theorem splitBlank (h : Respelled name value cs cs') :
    Respelled name value (Text.splitBlank cs).1 (Text.splitBlank cs').1 ∧
      Respelled name value (Text.splitBlank cs).2 (Text.splitBlank cs').2 := by
  have hp (c : Char) (hc : isSolid c = true) : (!Text.isBlank c) = true := by
    rw [isBlank_of_isSolid hc]
    rfl
  refine ⟨h.takeWhile hname hvalue hp, ?_⟩
  rw [Text.splitBlank, Text.splitBlank, List.drop_one, List.drop_one]
  apply (h.dropWhile hname hvalue hp).tail
  intro hhead
  have hblank := List.head?_dropWhile_not (!Text.isBlank ·) cs
  rw [hhead] at hblank
  exact absurd hblank (by decide)

end Solid

end Respelled

theorem trimEnd_cons (c : Char) (cs : List Char) :
    Text.trimEnd (c :: cs) =
      if (Text.trimEnd cs).isEmpty && Text.isBlank c then [] else c :: Text.trimEnd cs := by
  rw [Text.trimEnd, Text.trimEnd, List.reverse_cons, List.dropWhile_append]
  cases hdrop : cs.reverse.dropWhile Text.isBlank with
  | nil =>
    cases hc : Text.isBlank c with
    | true => simp [hc]
    | false => simp [hc]
  | cons d rest => simp

theorem trimEnd_append {word : List Char} (hword : ∀ c ∈ word, isSolid c = true)
    (cs : List Char) : Text.trimEnd (word ++ cs) = word ++ Text.trimEnd cs := by
  induction word with
  | nil => rfl
  | cons c word ih =>
    obtain ⟨hc, hrest⟩ := List.forall_mem_cons.mp hword
    rw [List.cons_append, trimEnd_cons, isBlank_of_isSolid hc, Bool.and_false, ih hrest]
    rfl

def OpenQuote (quote : Option Char) : Prop :=
  ∀ q ∈ quote, isQuote q = true

theorem OpenQuote.none : OpenQuote none :=
  nofun

theorem OpenQuote.after {quote : Option Char} (h : OpenQuote quote) (c : Char) :
    OpenQuote (quoteAfter quote c) := by
  intro q hq
  unfold quoteAfter at hq
  split at hq
  case h_1 =>
    split at hq
    case isTrue hc =>
      cases hq
      exact hc
    case isFalse => cases hq
  case h_2 =>
    split at hq
    case isTrue => cases hq
    case isFalse =>
      cases hq
      exact h q rfl

theorem quoteAfter_of_not_isQuote {quote : Option Char} (h : OpenQuote quote) {c : Char}
    (hc : isQuote c = false) : quoteAfter quote c = quote := by
  cases quote with
  | none => rw [quoteAfter, hc]; rfl
  | some q =>
    have hne : c ≠ q := by
      rintro rfl
      rw [h c rfl] at hc
      cases hc
    rw [quoteAfter, if_neg hne]

theorem quoteAfter_of_isSolid {quote : Option Char} (h : OpenQuote quote) {c : Char}
    (hc : isSolid c = true) : quoteAfter quote c = quote :=
  quoteAfter_of_not_isQuote h (not_isQuote_of_isSolid hc)

theorem uncommented_start (quote : Option Char) (cs : List Char) : uncommented quote cs <+: cs := by
  induction cs generalizing quote with
  | nil => exact List.prefix_rfl
  | cons c cs ih =>
    unfold uncommented
    split
    · exact List.nil_prefix
    · exact List.cons_prefix_cons.mpr ⟨rfl, ih _⟩

theorem uncommented_append {quote : Option Char} (h : OpenQuote quote) {word : List Char}
    (hword : ∀ c ∈ word, isSolid c = true) (cs : List Char) :
    uncommented quote (word ++ cs) = word ++ uncommented quote cs := by
  induction word with
  | nil => rfl
  | cons c word ih =>
    obtain ⟨hc, hrest⟩ := List.forall_mem_cons.mp hword
    have hne : (c == ';') = false := by
      rw [beq_eq_false_iff_ne]
      rintro rfl
      cases hc
    rw [List.cons_append, uncommented, hne, Bool.and_false, quoteAfter_of_isSolid h hc, ih hrest]
    rfl

theorem pieces_append {quote : Option Char} (h : OpenQuote quote) {word : List Char}
    (hword : ∀ c ∈ word, isSolid c = true) (depth : Nat) (done cs : List Char) :
    pieces depth quote done (word ++ cs) = pieces depth quote (word.reverse ++ done) cs := by
  induction word generalizing done with
  | nil => rfl
  | cons c word ih =>
    obtain ⟨hc, hrest⟩ := List.forall_mem_cons.mp hword
    have hstep : pieces depth quote done (c :: (word ++ cs)) =
        pieces depth quote (c :: done) (word ++ cs) := by
      have hmark : c ∉ ['[', '\x7b', ']', '\x7d', ','] := by
        intro hmem
        simp only [List.mem_cons, List.not_mem_nil, or_false] at hmem
        rcases hmem with rfl | rfl | rfl | rfl | rfl <;> cases hc
      simp only [List.mem_cons, List.not_mem_nil, or_false, not_or] at hmark
      conv_lhs => unfold pieces
      rw [not_isQuote_of_isSolid hc, quoteAfter_of_isSolid h hc]
      cases quote with
      | none => simp [hmark]
      | some q => rfl
    rw [List.cons_append, hstep, ih hrest, List.reverse_cons, List.append_assoc]
    rfl

namespace Respelled

variable {name value cs cs' : List Char}

/-- What was read on both sides leads on to what is respelled. -/
def Leads (name value done done' cs : List Char) : Prop :=
  ∀ rest rest', Respelled name value rest rest' → (∀ c ∈ rest.head?, c ∈ cs.head?) →
    Respelled name value (done.reverse ++ rest) (done'.reverse ++ rest')

theorem Leads.nil (cs : List Char) : Leads name value [] [] cs :=
  fun _ _ hrest _ => hrest

theorem Leads.cons {done done' : List Char} {c : Char} (h : Leads name value done done' (c :: cs)) :
    Leads name value (c :: done) (c :: done') cs := by
  intro rest rest' hrest _
  rw [List.reverse_cons, List.reverse_cons, List.append_assoc, List.append_assoc]
  exact h _ _ (.cons c hrest) fun d hd => hd

theorem Leads.word {done done' : List Char}
    (h : Leads name value done done' ('#' :: (name ++ cs)))
    (ends : ∀ c ∈ cs.head?, Operand.isNameChar c = false) :
    Leads name value (('#' :: name).reverse ++ done) (('#' :: value).reverse ++ done') cs := by
  intro rest rest' hrest hhead
  rw [List.reverse_append, List.reverse_reverse, List.append_assoc, List.reverse_append,
    List.reverse_reverse, List.append_assoc]
  exact h _ _ (.name (fun c hc => ends c (hhead c hc)) hrest) fun d hd => hd

theorem Leads.done {done done' : List Char} (h : Leads name value done done' cs) :
    Respelled name value done.reverse done'.reverse := by
  have hdone := h [] [] .nil nofun
  rwa [List.append_nil, List.append_nil] at hdone

section Solid

variable (hname : ∀ c ∈ name, isSolid c = true) (hvalue : ∀ c ∈ value, isSolid c = true)

include hname hvalue

theorem trim (h : Respelled name value cs cs') :
    Respelled name value (Text.trim cs) (Text.trim cs') := by
  have hend {cs cs' : List Char} (h : Respelled name value cs cs') :
      Respelled name value (Text.trimEnd cs) (Text.trimEnd cs') := by
    induction h with
    | nil => exact .nil
    | cons c rest ih =>
      rw [trimEnd_cons, trimEnd_cons, ih.isEmpty_eq]
      split
      · exact .nil
      · exact .cons c ih
    | @name cs cs' ends rest ih =>
      have hword (word cs : List Char) (hw : ∀ c ∈ word, isSolid c = true) :
          Text.trimEnd ('#' :: (word ++ cs)) = '#' :: (word ++ Text.trimEnd cs) :=
        trimEnd_append (List.forall_mem_cons.mpr ⟨rfl, hw⟩) cs
      rw [hword name cs hname, hword value cs' hvalue]
      exact .name (fun c hc => ends c (mem_head?_of_start (List.rdropWhile_prefix _ _) hc)) ih
  exact hend (h.dropWhile_of_hash (by decide))

theorem uncommented (h : Respelled name value cs cs') {quote : Option Char}
    (hquote : OpenQuote quote) :
    Respelled name value (Source.uncommented quote cs) (Source.uncommented quote cs') := by
  induction h generalizing quote with
  | nil => exact .nil
  | cons c rest ih =>
    rw [Source.uncommented, Source.uncommented]
    split
    · exact .nil
    · exact .cons c (ih (hquote.after c))
  | @name cs cs' ends rest ih =>
    have hword (word cs : List Char) (hw : ∀ c ∈ word, isSolid c = true) :
        Source.uncommented quote ('#' :: (word ++ cs)) =
          '#' :: (word ++ Source.uncommented quote cs) :=
      uncommented_append hquote (List.forall_mem_cons.mpr ⟨rfl, hw⟩) cs
    rw [hword name cs hname, hword value cs' hvalue]
    exact .name (fun c hc => ends c (mem_head?_of_start (uncommented_start quote cs) hc))
      (ih hquote)

theorem pieces (h : Respelled name value cs cs') {quote : Option Char} (hquote : OpenQuote quote)
    (depth : Nat) {done done' : List Char} (hlead : Leads name value done done' cs) :
    Option.Rel (List.Forall₂ (Respelled name value)) (Source.pieces depth quote done cs)
      (Source.pieces depth quote done' cs') := by
  -- A piece is respelled as a whole, so the induction keeps what was read of it.
  induction h generalizing quote depth done done' with
  | nil =>
    rw [Source.pieces, Source.pieces]
    split
    · exact .some (.cons hlead.done .nil)
    · exact .none
  | @cons c cs cs' rest ih =>
    rw [Source.pieces.eq_def, Source.pieces.eq_def]
    dsimp only
    split
    · exact ih (hquote.after c) depth hlead.cons
    · split
      · split
        · exact ih .none (depth + 1) hlead.cons
        · exact .none
      · split
        · split
          · exact .none
          · exact ih .none _ hlead.cons
        · split
          · have hrest := ih .none 0 (.nil cs)
            generalize Source.pieces 0 none [] cs = x at hrest ⊢
            generalize Source.pieces 0 none [] cs' = y at hrest ⊢
            cases hrest with
            | none => exact .none
            | some hrest => exact .some (.cons hlead.done hrest)
          · exact ih .none depth hlead.cons
  | @name cs cs' ends rest ih =>
    have hword (word done cs : List Char) (hw : ∀ c ∈ word, isSolid c = true) :
        Source.pieces depth quote done ('#' :: (word ++ cs)) =
          Source.pieces depth quote (('#' :: word).reverse ++ done) cs :=
      pieces_append hquote (List.forall_mem_cons.mpr ⟨rfl, hw⟩) depth done cs
    rw [hword name done cs hname, hword value done' cs' hvalue]
    exact ih hquote depth (hlead.word ends)

theorem splitOperands (h : Respelled name value cs cs') :
    Option.Rel (List.Forall₂ fun op op' => Respelled name value op.toList op'.toList)
      (Source.splitOperands cs) (Source.splitOperands cs') := by
  have htrim := h.trim hname hvalue
  rw [Source.splitOperands, Source.splitOperands, htrim.isEmpty_eq]
  dsimp only
  split
  · exact .some .nil
  · have hpieces := htrim.pieces hname hvalue .none 0 (.nil _)
    generalize Source.pieces 0 none [] (Text.trim cs) = x at hpieces ⊢
    generalize Source.pieces 0 none [] (Text.trim cs') = y at hpieces ⊢
    cases hpieces with
    | none => exact .none
    | @some ops ops' hops =>
      have hany : (ops'.map Text.trim).any List.isEmpty = (ops.map Text.trim).any List.isEmpty := by
        induction hops with
        | nil => rfl
        | cons hop _ ih =>
          simp only [List.map_cons, List.any_cons, ih, (hop.trim hname hvalue).isEmpty_eq]
      rw [Option.bind_some, Option.bind_some, hany]
      split
      · exact .none
      · simp only [List.map_map]
        refine .some (List.forall₂_map_left_iff.mpr (List.forall₂_map_right_iff.mpr ?_))
        refine hops.imp fun op op' hop => ?_
        rw [Function.comp_apply, Function.comp_apply, String.toList_ofList, String.toList_ofList]
        exact hop.trim hname hvalue

end Solid

end Respelled

/-- No directive and no mnemonic has the mark or a quote. -/
theorem not_mem_of_isKnown {word : List Char} (h : isKnown word = true) {c : Char}
    (hc : c ∈ ['#', '"', '\'']) : c ∉ word := by
  obtain ⟨hforms, hdirectives, hsame⟩ :
      (∀ f ∈ Form.all, ∀ s ∈ f.name :: f.aliases, c ∉ s.toList) ∧
      (∀ s ∈ dataDirectives ++ ignoredDirectives ++ ["AREA", "EQU", "END"], c ∉ s.toList) ∧
      c.toUpper = c := by
    simp only [List.mem_cons, List.not_mem_nil, or_false] at hc
    rcases hc with rfl | rfl | rfl <;> decide
  have hupper : c ∉ (upperText word).toList := by
    rw [isKnown, Bool.or_eq_true] at h
    rcases h with h | h
    · apply hdirectives
      simpa [isDirective, or_assoc] using h
    · obtain ⟨f, hf, hanswers⟩ := List.any_eq_true.mp h
      apply hforms f hf
      rw [String.toList_ofList] at hanswers
      simpa [Form.answersTo, upperText] using hanswers
  intro hmem
  apply hupper
  rw [upperText, String.toList_ofList]
  exact List.mem_map.mpr ⟨c, hmem, hsame⟩

theorem not_isLabel_of_mem {name : List Char} (h : '#' ∈ name) :
    Operand.isLabel (String.ofList name) = false := by
  rw [Bool.eq_false_iff]
  intro hlabel
  have hchars := Operand.isNameChar_of_isLabel hlabel
  rw [String.toList_ofList] at hchars
  cases hchars '#' (Text.mem_trim h (by decide))

/-- Labels before a check: the same, or none that passes it. -/
def SameLabel (label label' : Option (List Char)) : Prop :=
  label' = label ∨ (∃ cs ∈ label, '#' ∈ cs) ∧ ∃ cs ∈ label', '#' ∈ cs

theorem SameLabel.checkLabel {label label' : Option (List Char)} (h : SameLabel label label') :
    Agree Eq (checkLabel label) (checkLabel label') := by
  have hrefuse {cs : List Char} (hmem : '#' ∈ cs) :
      Source.checkLabel (some cs) = .error (.invalidLabel (String.ofList cs)) := by
    rw [Source.checkLabel, not_isLabel_of_mem hmem]
    rfl
  rcases h with rfl | ⟨⟨cs, hcs, hmem⟩, cs', hcs', hmem'⟩
  · exact .refl (fun _ => rfl) _
  · cases hcs
    cases hcs'
    rw [hrefuse hmem, hrefuse hmem']
    exact .error _ _

namespace Respelled

variable {name value cs cs' : List Char}

theorem isKnown_eq (h : Respelled name value cs cs') : isKnown cs' = isKnown cs := by
  by_cases hmem : '#' ∈ cs
  · have hno {word : List Char} (hword : '#' ∈ word) : isKnown word = false :=
      Bool.eq_false_iff.mpr fun hknown => not_mem_of_isKnown hknown (.head _) hword
    rw [hno hmem, hno (h.mem_hash_iff.mpr hmem)]
  · rw [h.eq_of_not_mem hmem]

theorem sameLabel (h : Respelled name value cs cs') : SameLabel (some cs) (some cs') := by
  by_cases hmem : '#' ∈ cs
  · exact .inr ⟨⟨cs, rfl, hmem⟩, cs', rfl, h.mem_hash_iff.mpr hmem⟩
  · rw [h.eq_of_not_mem hmem]
    exact .inl rfl

theorem sameLabel_dropLast (h : Respelled name value cs cs') (hlast : cs.getLast? = some ':')
    (hlast' : cs'.getLast? = some ':') : SameLabel (some cs.dropLast) (some cs'.dropLast) := by
  have hdrop {cs : List Char} (hlast : cs.getLast? = some ':') (hmem : '#' ∈ cs) :
      '#' ∈ cs.dropLast := by
    rw [← List.dropLast_append_getLast? _ hlast, List.mem_append] at hmem
    exact hmem.resolve_right (by decide)
  by_cases hmem : '#' ∈ cs
  · exact .inr ⟨⟨_, rfl, hdrop hlast hmem⟩, _, rfl, hdrop hlast' (h.mem_hash_iff.mpr hmem)⟩
  · rw [h.eq_of_not_mem hmem]
    exact .inl rfl

section Solid

variable (hname : ∀ c ∈ name, isSolid c = true) (hvalue : ∀ c ∈ value, isSolid c = true)

include hname hvalue

theorem getLast?_colon_iff (h : Respelled name value cs cs') :
    cs'.getLast? = some ':' ↔ cs.getLast? = some ':' := by
  induction h with
  | nil => rfl
  | @cons c cs cs' rest ih =>
    by_cases hnil : cs = []
    · rw [hnil, rest.nil_iff.mpr hnil]
    · rw [List.getLast?_cons_of_ne_nil hnil, List.getLast?_cons_of_ne_nil (mt rest.nil_iff.mp hnil),
        ih]
  | @name cs cs' ends rest ih =>
    have hword {word cs : List Char} (hw : ∀ c ∈ word, isSolid c = true) :
        ('#' :: (word ++ cs)).getLast? = some ':' ↔ cs.getLast? = some ':' := by
      rw [← List.cons_append, List.getLast?_append]
      cases hlast : cs.getLast? with
      | some c => rfl
      | none =>
        constructor
        · intro hcolon
          have hsolid : ∀ c ∈ '#' :: word, isSolid c = true := List.forall_mem_cons.mpr ⟨rfl, hw⟩
          cases hsolid ':' (List.mem_of_getLast? hcolon)
        · exact nofun
    rw [hword hname, hword hvalue, ih]

/-- Both lines have a label, or neither has. -/
theorem splitLabel {raw raw' : List Char} (hraw : Respelled name value raw raw')
    (h : Respelled name value cs cs') :
    Agree (fun x y => SameLabel x.1 y.1 ∧ Respelled name value x.2 y.2)
      (Source.splitLabel raw cs) (Source.splitLabel raw' cs') := by
  obtain ⟨hhead, hrest⟩ := h.splitBlank hname hvalue
  have htrim := hrest.trim hname hvalue
  have hword := htrim.splitBlank hname hvalue
  have hcolon := hhead.getLast?_colon_iff hname hvalue
  unfold Source.splitLabel
  dsimp only
  rw [hhead.isKnown_eq, htrim.isEmpty_eq, hraw.head?_eq, hword.1.isKnown_eq]
  by_cases hlast : (Text.splitBlank cs).1.getLast? = some ':'
  · rw [if_pos hlast, if_pos (hcolon.mpr hlast)]
    exact .ok ⟨hhead.sameLabel_dropLast hlast (hcolon.mpr hlast), htrim⟩
  · rw [if_neg hlast, if_neg (mt hcolon.mp hlast)]
    split
    · exact .ok ⟨.inl rfl, h⟩
    · split
      · split
        · exact .error _ _
        · exact .ok ⟨hhead.sameLabel, .nil⟩
      · split
        · exact .ok ⟨hhead.sameLabel, htrim⟩
        · exact .error _ _

end Solid

end Respelled

def isLiteral (op : String) : Bool :=
  (Text.trim op.toList).head? == some '='

def lineLiterals (raw : List Char) : List String :=
  ((lineOperands raw).getD []).filter isLiteral

/-- An instruction line with some occurrences of a name after the mark `#` replaced by a value, but
none in a literal. -/
structure SpellsOut (name value : List Char) (raw raw' : List Char) : Prop where
  kind : lineKind raw = .record
  instruction : lineWord raw ∉ dataDirectives
  text : Respelled name value raw raw'
  literals : lineLiterals raw' = lineLiterals raw

/-- Operands, of which literals are the same. -/
structure SameOperand (name value : List Char) (op op' : String) : Prop where
  text : Respelled name value op.toList op'.toList
  literal : isLiteral op = true → op' = op

inductive SameStatement (name value : List Char) : Statement → Statement → Prop
  | refl (s : Statement) : SameStatement name value s s
  | record {label : Option String} {mnemonic : String} {ops ops' : List String}
      (instruction : mnemonic ∉ dataDirectives)
      (operands : List.Forall₂ (SameOperand name value) ops ops') :
      SameStatement name value (.record label mnemonic ops) (.record label mnemonic ops')

section Statement

variable {name value cs cs' : List Char} (hname : ∀ c ∈ name, isSolid c = true)
  (hvalue : ∀ c ∈ value, isSolid c = true)

include hname hvalue

theorem isLiteral_eq {op op' : String} (h : Respelled name value op.toList op'.toList) :
    isLiteral op' = isLiteral op := by
  rw [isLiteral, isLiteral, (h.trim hname hvalue).head?_eq]

theorem sameOperands {ops ops' : List String}
    (h : List.Forall₂ (fun op op' => Respelled name value op.toList op'.toList) ops ops')
    (hliterals : ops'.filter isLiteral = ops.filter isLiteral) :
    List.Forall₂ (SameOperand name value) ops ops' := by
  induction h with
  | nil => exact .nil
  | @cons op op' ops ops' hop _ ih =>
    rw [List.filter_cons, List.filter_cons, isLiteral_eq hname hvalue hop] at hliterals
    cases hliteral : isLiteral op with
    | true =>
      rw [hliteral] at hliterals
      obtain ⟨hsame, hrest⟩ := List.cons.inj hliterals
      exact .cons ⟨hop, fun _ => hsame⟩ (ih hrest)
    | false =>
      rw [hliteral] at hliterals
      refine .cons ⟨hop, fun h => ?_⟩ (ih hliterals)
      rw [hliteral] at h
      cases h

/-- The word of an instruction is the same on both sides, and so is the number of its operands. -/
theorem Respelled.parseBody (h : Respelled name value cs cs') (label : Option String)
    (harea : upperText (Text.splitBlank cs).1 ≠ "AREA")
    (hequ : upperText (Text.splitBlank cs).1 ≠ "EQU")
    (hdata : upperText (Text.splitBlank cs).1 ∉ dataDirectives)
    (hliterals : ((Source.splitOperands (Text.splitBlank cs').2).getD []).filter isLiteral =
      ((Source.splitOperands (Text.splitBlank cs).2).getD []).filter isLiteral) :
    Agree (SameStatement name value) (Source.parseBody label cs) (Source.parseBody label cs') := by
  obtain ⟨hword, hrest⟩ := h.splitBlank hname hvalue
  have hoperands := hrest.splitOperands hname hvalue
  unfold Source.parseBody
  dsimp only
  rw [hword.isKnown_eq]
  cases hknown : isKnown (Text.splitBlank cs).1 with
  | false => exact .error _ _
  | true =>
    rw [hword.eq_of_not_mem (not_mem_of_isKnown hknown (.head _))]
    generalize Source.splitOperands (Text.splitBlank cs).2 = x at hoperands hliterals ⊢
    generalize Source.splitOperands (Text.splitBlank cs').2 = y at hoperands hliterals ⊢
    cases hoperands with
    | none => exact .error _ _
    | @some ops ops' hops =>
      simp only [Bool.not_true, Bool.false_eq_true, if_false, harea, hequ]
      split
      · exact .ok (.refl _)
      · split
        · exact .ok (.refl _)
        · exact .ok (.record hdata (sameOperands hname hvalue hops hliterals))

theorem SpellsOut.parseStatement {raw raw' : List Char} (h : SpellsOut name value raw raw') :
    Agree (SameStatement name value) (parseStatement raw) (parseStatement raw') := by
  have hcontent : Respelled name value (content raw) (content raw') :=
    (h.text.uncommented hname hvalue .none).trim hname hvalue
  have htext (raw : List Char) : Text.trim (Source.uncommented none raw) = content raw := rfl
  unfold Source.parseStatement
  dsimp only
  rw [htext, htext, hcontent.isEmpty_eq]
  cases hempty : (content raw).isEmpty with
  | true => exact .ok (.refl _)
  | false =>
    have hempty' : (content raw').isEmpty = false := hcontent.isEmpty_eq.trans hempty
    apply (h.text.splitLabel hname hvalue hcontent).bind_of_ok
    rintro x y hx hy ⟨hlabel, hrest⟩
    obtain ⟨_, hbody⟩ := eq_of_splitLabel hempty hx
    obtain ⟨_, hbody'⟩ := eq_of_splitLabel hempty' hy
    refine hlabel.checkLabel.bind ?_
    rintro checked _ rfl
    rw [hrest.isEmpty_eq]
    cases hnil : x.2.isEmpty with
    | true => exact .ok (.refl _)
    | false =>
      have hkind := h.kind
      rw [lineKind_of_body (hbody ▸ hnil)] at hkind
      have hword : upperText (Text.splitBlank x.2).1 = lineWord raw := by rw [← hbody]; rfl
      apply hrest.parseBody hname hvalue checked
      · rw [hword]
        intro heq
        rw [heq] at hkind
        cases hkind
      · rw [hword]
        intro heq
        rw [heq] at hkind
        cases hkind
      · rw [hword]
        exact h.instruction
      · rw [← hbody, ← hbody']
        exact h.literals

end Statement

end Thumb.Source

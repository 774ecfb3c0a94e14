import Thumb.Proofs.OperandList

namespace Thumb

namespace Text

theorem exists_splitBlank (cs : List Char) :
    ∃ gap, cs = (splitBlank cs).1 ++ (gap ++ (splitBlank cs).2) ∧ ∀ c ∈ gap, isBlank c = true := by
  refine ⟨(cs.dropWhile (!isBlank ·)).take 1, ?_, ?_⟩
  · rw [splitBlank, List.take_append_drop, List.takeWhile_append_dropWhile]
  · intro c hc
    have hblank := List.head?_dropWhile_not (!isBlank ·) cs
    cases hdrop : cs.dropWhile (!isBlank ·) with
    | nil =>
      rw [hdrop] at hc
      cases hc
    | cons d rest =>
      rw [hdrop] at hc hblank
      cases List.mem_singleton.mp hc
      simpa using hblank

end Text

namespace Source

/-- The quote that is open after a text. -/
def quoteAt (quote : Option Char) (cs : List Char) : Option Char :=
  cs.foldl quoteAfter quote

theorem quoteAt_append (quote : Option Char) (cs more : List Char) :
    quoteAt quote (cs ++ more) = quoteAt (quoteAt quote cs) more :=
  List.foldl_append

theorem OpenQuote.at {quote : Option Char} (h : OpenQuote quote) (cs : List Char) :
    OpenQuote (quoteAt quote cs) := by
  induction cs generalizing quote with
  | nil => exact h
  | cons c cs ih => exact ih (h.after c)

theorem quoteAt_of_not_isQuote {quote : Option Char} (h : OpenQuote quote) {cs : List Char}
    (hcs : ∀ c ∈ cs, isQuote c = false) : quoteAt quote cs = quote := by
  induction cs with
  | nil => rfl
  | cons c cs ih =>
    obtain ⟨hc, hcs⟩ := List.forall_mem_cons.mp hcs
    rw [quoteAt, List.foldl_cons, quoteAfter_of_not_isQuote h hc]
    exact ih hcs

theorem not_isQuote_of_isBlank {c : Char} (h : Text.isBlank c = true) : isQuote c = false := by
  have hne := Nesting.ne_of_isBlank h
  simp only [List.mem_cons, not_or] at hne
  simp [isQuote, hne]

theorem quoteAt_of_isBlank {quote : Option Char} (h : OpenQuote quote) {blanks : List Char}
    (hblanks : ∀ c ∈ blanks, Text.isBlank c = true) : quoteAt quote blanks = quote :=
  quoteAt_of_not_isQuote h fun c hc => not_isQuote_of_isBlank (hblanks c hc)

theorem quoteAt_trim (cs : List Char) : quoteAt none (Text.trim cs) = quoteAt none cs := by
  obtain ⟨lead, trail, hcs, hlead, htrail⟩ := Text.exists_trim cs
  conv_rhs => rw [hcs]
  rw [quoteAt_append, quoteAt_append, quoteAt_of_isBlank .none hlead,
    quoteAt_of_isBlank (OpenQuote.none.at _) htrail]

theorem quoteAt_splitBlank {cs : List Char}
    (h : ∀ c ∈ (Text.splitBlank cs).1, isQuote c = false) :
    quoteAt none cs = quoteAt none (Text.splitBlank cs).2 := by
  obtain ⟨gap, hcs, hgap⟩ := Text.exists_splitBlank cs
  conv_lhs => rw [hcs]
  rw [quoteAt_append, quoteAt_append, quoteAt_of_not_isQuote .none h,
    quoteAt_of_isBlank .none hgap]

theorem not_isQuote_of_not_mem {cs : List Char} (hdouble : '"' ∉ cs) (hsingle : '\'' ∉ cs) :
    ∀ c ∈ cs, isQuote c = false := by
  intro c hc
  rw [isQuote, Bool.or_eq_false_iff, beq_eq_false_iff_ne, beq_eq_false_iff_ne]
  exact ⟨fun h => hdouble (h ▸ hc), fun h => hsingle (h ▸ hc)⟩

theorem not_isQuote_of_isKnown {word : List Char} (h : isKnown word = true) :
    ∀ c ∈ word, isQuote c = false :=
  not_isQuote_of_not_mem (not_mem_of_isKnown h (by decide)) (not_mem_of_isKnown h (by decide))

theorem not_isQuote_of_checkLabel {name : List Char} {checked : Option String}
    (h : checkLabel (some name) = .ok checked) : ∀ c ∈ name, isQuote c = false := by
  unfold checkLabel at h
  dsimp only at h
  split at h
  case isTrue hcheck =>
    have hchars := Operand.isNameChar_of_isLabel (Bool.and_eq_true_iff.mp hcheck).1
    rw [String.toList_ofList] at hchars
    have hno {c : Char} (hblank : Text.isBlank c = false) (hc : Operand.isNameChar c = false) :
        c ∉ name := by
      intro hmem
      rw [hchars c (Text.mem_trim hmem hblank)] at hc
      cases hc
    exact not_isQuote_of_not_mem (hno rfl rfl) (hno rfl rfl)
  case isFalse => cases h

theorem quoteAt_of_splitLabel {raw text rest : List Char} {label : Option (List Char)}
    {checked : Option String} (h : splitLabel raw text = .ok (label, rest))
    (hlabel : checkLabel label = .ok checked) : quoteAt none text = quoteAt none rest := by
  unfold splitLabel at h
  dsimp only at h
  split at h
  case isTrue hcolon =>
    cases h
    rw [quoteAt_trim]
    apply quoteAt_splitBlank
    rw [← List.dropLast_append_getLast? _ hcolon, List.forall_mem_append]
    exact ⟨not_isQuote_of_checkLabel hlabel, List.forall_mem_singleton.mpr rfl⟩
  case isFalse =>
    split at h
    case isTrue =>
      cases h
      rfl
    case isFalse =>
      split at h
      case isTrue hempty =>
        split at h
        case isTrue => cases h
        case isFalse =>
          cases h
          rw [quoteAt_splitBlank (not_isQuote_of_checkLabel hlabel), ← quoteAt_trim,
            List.isEmpty_iff.mp hempty]
      case isFalse =>
        split at h
        case isTrue =>
          cases h
          rw [quoteAt_splitBlank (not_isQuote_of_checkLabel hlabel), quoteAt_trim]
        case isFalse => cases h

theorem Nesting.quote_read (n : Nesting) (cs : List Char) :
    (n.read cs).quote = quoteAt n.quote cs := by
  induction cs generalizing n with
  | nil => rfl
  | cons c cs ih =>
    show ((n.after c).read cs).quote = quoteAt (quoteAfter n.quote c) cs
    rw [ih, after_quote]

theorem quoteAt_of_splitOperands {text : List Char} {ops : List String}
    (h : splitOperands text = some ops) : quoteAt none text = none := by
  rcases splitOperands_eq_some_iff.mp h with ⟨hblank, _⟩ | ⟨⟨_, hread⟩, _⟩
  · exact quoteAt_of_isBlank .none hblank
  · have hquote := Nesting.quote_read {} text
    rw [hread] at hquote
    exact hquote.symm

theorem quoteAt_of_parseBody {label : Option String} {text : List Char} {s : Statement}
    (h : parseBody label text = .ok s) : quoteAt none text = none := by
  unfold parseBody at h
  dsimp only at h
  split at h
  case isTrue => cases h
  case isFalse hknown =>
    split at h
    case h_1 => cases h
    case h_2 ops hops =>
      rw [quoteAt_splitBlank (not_isQuote_of_isKnown (by simpa using hknown))]
      exact quoteAt_of_splitOperands hops

/-- A line that is accepted leaves no quote open before its comment. -/
theorem quoteAt_of_parseStatement {raw : List Char} {s : Statement}
    (h : parseStatement raw = .ok s) : quoteAt none (uncommented none raw) = none := by
  rw [← quoteAt_trim]
  unfold parseStatement at h
  dsimp only at h
  split at h
  case isTrue hempty => rw [List.isEmpty_iff.mp hempty]; rfl
  case isFalse =>
    obtain ⟨⟨label, rest⟩, hsplit, h⟩ := bind_ok_iff.mp h
    obtain ⟨checked, hchecked, h⟩ := bind_ok_iff.mp h
    rw [quoteAt_of_splitLabel hsplit hchecked]
    dsimp only at h
    split at h
    case isTrue hempty => rw [List.isEmpty_iff.mp hempty]; rfl
    case isFalse => exact quoteAt_of_parseBody h

theorem uncommented_comment {quote : Option Char} {cs : List Char}
    (h : quoteAt quote (uncommented quote cs) = none) (text : List Char) :
    uncommented quote (cs ++ ';' :: text) = uncommented quote cs := by
  induction cs generalizing quote with
  | nil =>
    cases h
    rfl
  | cons c cs ih =>
    rw [List.cons_append, uncommented, uncommented]
    rw [uncommented] at h
    split
    case isTrue => rfl
    case isFalse hother =>
      rw [if_neg hother] at h
      rw [ih h]

theorem parseStatement_comment {raw : List Char} {s : Statement} (h : parseStatement raw = .ok s)
    (text : List Char) : parseStatement (raw ++ ';' :: text) = .ok s := by
  have hsame := uncommented_comment (quoteAt_of_parseStatement h) text
  cases raw with
  | nil => exact h
  | cons c cs =>
    rw [← h]
    unfold parseStatement
    rw [hsame]
    rfl

def commentText : Option (List Char) → List Char
  | none => []
  | some text => ';' :: text

/-- A text with comments after some of its lines, which are numbered from `n` on. What follows the
last line end counts as a line. -/
def annotate (comment : Nat → Option (List Char)) (n : Nat) : List Char → List Char
  | [] => commentText (comment n)
  | '\r' :: '\n' :: cs => commentText (comment n) ++ '\r' :: '\n' :: annotate comment (n + 1) cs
  | '\n' :: cs => commentText (comment n) ++ '\n' :: annotate comment (n + 1) cs
  | c :: cs => c :: annotate comment n cs

inductive Commented (raw : List Char) : List Char → Prop
  | same : Commented raw raw
  | comment (text : List Char) : Commented raw (raw ++ ';' :: text)

theorem Commented.commentText (raw : List Char) (comment : Option (List Char)) :
    Commented raw (raw ++ commentText comment) := by
  cases comment with
  | none =>
    rw [Source.commentText, List.append_nil]
    exact .same
  | some text => exact .comment text

theorem Commented.parseStatement {raw raw' : List Char} (h : Commented raw raw') {s : Statement}
    (hs : parseStatement raw = .ok s) : parseStatement raw' = .ok s := by
  cases h with
  | same => exact hs
  | comment text => exact parseStatement_comment hs text

theorem dropReturn_cons {c : Char} {cs : List Char} (h : c ≠ '\r' ∨ cs ≠ []) :
    Text.dropReturn (c :: cs) = c :: Text.dropReturn cs := by
  cases cs with
  | nil =>
    have hc : [c].getLast? ≠ some '\r' := by simpa using h
    rw [Text.dropReturn, if_neg hc]
    rfl
  | cons d cs =>
    rw [Text.dropReturn, Text.dropReturn, List.getLast?_cons_cons, List.dropLast_cons_cons]
    split <;> rfl

theorem dropReturn_append (cs : List Char) {more : List Char} (h : more ≠ []) :
    Text.dropReturn (cs ++ more) = cs ++ Text.dropReturn more := by
  induction cs with
  | nil => rfl
  | cons c cs ih =>
    have hne : cs ++ more ≠ [] := List.append_ne_nil_of_right_ne_nil cs h
    rw [List.cons_append, dropReturn_cons (.inr hne), ih, List.cons_append]

section Lines

variable {line : List Char} (hline : '\n' ∉ line)

include hline

theorem lines_append (cs : List Char) :
    Text.lines (line ++ '\n' :: cs) = Text.dropReturn line :: Text.lines cs := by
  have hne := List.splitOn_ne_nil '\n' cs
  rw [Text.lines, List.splitOn_append_cons_self_of_not_mem hline, List.dropLast_cons_of_ne_nil hne,
    List.getLast?_cons_of_ne_nil hne]
  rfl

theorem lines_last (hne : line ≠ []) : Text.lines line = [line] := by
  rw [Text.lines, List.splitOn_eq_singleton hline]
  simp [hne]

variable (comment : Nat → Option (List Char)) (n : Nat)

theorem annotate_last : annotate comment n line = line ++ commentText (comment n) := by
  induction line with
  | nil => rfl
  | cons c line ih =>
    rw [List.mem_cons, not_or] at hline
    rw [annotate, ih hline.2, List.cons_append]
    · rintro cs _ rfl
      exact hline.2 (.head _)
    · rintro rfl
      exact hline.1 rfl

/-- The comment comes before the carriage return of a line end. -/
theorem annotate_append (cs : List Char) :
    ∃ ending, line = Text.dropReturn line ++ ending ∧ (ending = [] ∨ ending = ['\r']) ∧
      annotate comment n (line ++ '\n' :: cs) =
        (Text.dropReturn line ++ (commentText (comment n) ++ ending)) ++
          '\n' :: annotate comment (n + 1) cs := by
  induction line with
  | nil => exact ⟨[], rfl, .inl rfl, by simp [annotate, Text.dropReturn]⟩
  | cons c line ih =>
    rw [List.mem_cons, not_or] at hline
    by_cases hend : c = '\r' ∧ line = []
    · obtain ⟨rfl, rfl⟩ := hend
      exact ⟨['\r'], rfl, .inr rfl, by simp [annotate, Text.dropReturn]⟩
    · obtain ⟨ending, hreturn, hending, hannotate⟩ := ih hline.2
      have hdrop : Text.dropReturn (c :: line) = c :: Text.dropReturn line := by
        apply dropReturn_cons
        tauto
      refine ⟨ending, ?_, hending, ?_⟩
      · rw [hdrop, List.cons_append, ← hreturn]
      · rw [hdrop, List.cons_append, annotate, hannotate]
        · simp
        · rintro rest rfl hrest
          cases line with
          | nil => exact hend ⟨rfl, rfl⟩
          | cons d line =>
            cases hrest
            exact hline.2 (.head _)
        · rintro rfl
          exact hline.1 rfl

end Lines

theorem newline_not_mem_commentText {comment : Nat → Option (List Char)}
    (h : ∀ n text, comment n = some text → '\n' ∉ text) (n : Nat) :
    '\n' ∉ commentText (comment n) := by
  cases hn : comment n with
  | none => exact List.not_mem_nil
  | some text =>
    rw [commentText, List.mem_cons, not_or]
    exact ⟨by decide, h n text hn⟩

theorem commented_dropReturn {line ending : List Char}
    (hline : line = Text.dropReturn line ++ ending) (hending : ending = [] ∨ ending = ['\r'])
    (comment : Option (List Char)) :
    Commented (Text.dropReturn line)
      (Text.dropReturn (Text.dropReturn line ++ (commentText comment ++ ending))) := by
  rcases hending with rfl | rfl
  · rw [List.append_nil] at hline ⊢
    rw [← hline]
    cases comment with
    | none =>
      rw [commentText, List.append_nil, ← hline]
      exact .same
    | some text =>
      rw [commentText, dropReturn_append line (List.cons_ne_nil _ _),
        dropReturn_cons (.inl (by decide))]
      exact .comment _
  · have hreturn : Text.dropReturn ['\r'] = [] := rfl
    rw [← List.append_assoc, dropReturn_append _ (by simp), hreturn, List.append_nil]
    exact .commentText _ comment

def PaddedTo (ss ss' : List (Nat × Statement)) : Prop :=
  ∃ extra, (∀ e ∈ extra, e.2 = .blank) ∧ ss' = ss ++ extra

theorem foldl_blank {add : Draft → Nat × Statement → Draft}
    (hadd : ∀ d s, add d s = d.add s.1 s.2) {extra : List (Nat × Statement)}
    (hextra : ∀ e ∈ extra, e.2 = .blank) (d : Draft) : extra.foldl add d = d := by
  induction extra with
  | nil => rfl
  | cons e extra ih =>
    obtain ⟨he, hextra⟩ := List.forall_mem_cons.mp hextra
    rw [List.foldl_cons, hadd, he]
    exact ih hextra

theorem PaddedTo.build_eq {ss ss' : List (Nat × Statement)} (h : PaddedTo ss ss') :
    build ss' = build ss := by
  obtain ⟨extra, hextra, rfl⟩ := h
  rw [build, build, List.foldl_append, foldl_blank (fun _ _ => rfl) hextra]

theorem Commented.statements {raw raw' : List Char} (hraw : Commented raw raw') {n : Nat}
    {rest rest' : List (List Char)} {ss : List (Nat × Statement)}
    (h : statements n (raw :: rest) = .ok ss)
    (hrest : ∀ ss, statements (n + 1) rest = .ok ss →
      ∃ ss', statements (n + 1) rest' = .ok ss' ∧ PaddedTo ss ss') :
    ∃ ss', statements n (raw' :: rest') = .ok ss' ∧ PaddedTo ss ss' := by
  unfold Source.statements at h ⊢
  split at h
  case h_1 => cases h
  case h_2 label hs =>
    rw [hraw.parseStatement hs]
    exact ⟨_, h, [], List.forall_mem_nil _, (List.append_nil _).symm⟩
  case h_3 s hother hs =>
    obtain ⟨more, hmore, rfl⟩ := map_ok_iff.mp h
    obtain ⟨more', hmore', extra, hextra, rfl⟩ := hrest more hmore
    refine ⟨(n, s) :: (more ++ extra), ?_, extra, hextra, rfl⟩
    rw [hraw.parseStatement hs, hmore']
    cases s with
    | finish label => exact absurd rfl (hother label)
    | _ => rfl

theorem statements_last {cs : List Char} (hcs : '\n' ∉ cs) {comment : Option (List Char)}
    (hcomment : '\n' ∉ commentText comment) {n : Nat} {ss : List (Nat × Statement)}
    (h : statements n (Text.lines cs) = .ok ss) :
    ∃ ss', statements n (Text.lines (cs ++ commentText comment)) = .ok ss' ∧ PaddedTo ss ss' := by
  by_cases hnil : cs = []
  · rw [hnil] at h ⊢
    cases h
    cases comment with
    | none => exact ⟨[], rfl, [], List.forall_mem_nil _, rfl⟩
    | some text =>
      refine ⟨[(n, .blank)], ?_, [(n, .blank)], List.forall_mem_singleton.mpr rfl, rfl⟩
      rw [List.nil_append, lines_last hcomment (List.cons_ne_nil _ _)]
      rfl
  · have hboth : '\n' ∉ cs ++ commentText comment := by
      rw [List.mem_append, not_or]
      exact ⟨hcs, hcomment⟩
    rw [lines_last hcs hnil] at h
    rw [lines_last hboth (List.append_ne_nil_of_left_ne_nil hnil _)]
    apply (Commented.commentText cs comment).statements h
    intro ss hss
    exact ⟨ss, hss, [], List.forall_mem_nil _, (List.append_nil _).symm⟩

theorem statements_annotate {comment : Nat → Option (List Char)}
    (hcomment : ∀ n text, comment n = some text → '\n' ∉ text) {n : Nat} {cs : List Char}
    {ss : List (Nat × Statement)} (h : statements n (Text.lines cs) = .ok ss) :
    ∃ ss', statements n (Text.lines (annotate comment n cs)) = .ok ss' ∧ PaddedTo ss ss' := by
  have hnone := newline_not_mem_commentText hcomment
  -- The text is read line by line, and a line is at least a line feed.
  induction hlength : cs.length using Nat.strong_induction_on generalizing n cs ss with
  | _ length ih =>
    by_cases hmem : '\n' ∈ cs
    · obtain ⟨line, rest, rfl, hline⟩ := List.eq_append_cons_of_mem hmem
      obtain ⟨ending, hreturn, hending, hannotate⟩ := annotate_append hline comment n rest
      rw [lines_append hline] at h
      rw [hannotate, lines_append]
      · apply (commented_dropReturn hreturn hending (comment n)).statements h
        intro ss hss
        exact ih rest.length (by simp at hlength; omega) hss rfl
      · rw [hreturn] at hline
        simp only [List.mem_append, not_or] at hline ⊢
        exact ⟨hline.1, hnone n, hline.2⟩
    · rw [annotate_last hmem]
      exact statements_last hmem (hnone n) h

/-- Comments after lines of a source that is accepted, whatever stands in them, leave its program as
it is. -/
theorem parse_comments (source : String) (p : Program) (comment : Nat → Option (List Char))
    (hcomment : ∀ n text, comment n = some text → '\n' ∉ text) (h : parse source = .ok p) :
    parse (String.ofList (annotate comment 0 source.toList)) = .ok p := by
  obtain ⟨ss, hss, rfl⟩ := map_ok_iff.mp h
  obtain ⟨ss', hss', hpadded⟩ := statements_annotate hcomment hss
  rw [parse, String.toList_ofList, hss', ← hpadded.build_eq]
  rfl

/-- A bare label, a semicolon in quotes before a comment, a blank line, the end and what follows
it, all with an open quote and an open bracket in a comment. -/
theorem parse_comments_quotes :
    let source := "a\r\n DCB \";\" ; x\n\n END\n ?"
    let commented :=
      "a;'[;\r\n DCB \";\" ; x;'[;\n;'[;\n END;'[;\n ?;'[;"
    String.ofList (annotate (fun _ => some "'[;".toList) 0 source.toList) = commented ∧
    ∃ p, parse source = .ok p ∧ parse commented = .ok p ∧
      p.areas.map (·.records) = [[⟨some "a", "DCB", ["\";\""], 1⟩]] := by
  intro source commented
  have htext :
      String.ofList (annotate (fun _ => some "'[;".toList) 0 source.toList) = commented := by
    decide
  have hparse : (parse source).toOption.map (·.areas.map (·.records)) =
      some [[⟨some "a", "DCB", ["\";\""], 1⟩]] := by
    decide
  cases hp : parse source with
  | error e =>
    rw [hp] at hparse
    cases hparse
  | ok p =>
    rw [hp] at hparse
    have hcomment : ∀ n text, (fun _ : Nat => some "'[;".toList) n = some text → '\n' ∉ text := by
      intro n text h
      cases h
      decide
    have hcommented := parse_comments source p _ hcomment hp
    rw [htext] at hcommented
    exact ⟨htext, p, rfl, hcommented, Option.some.inj hparse⟩

end Source

end Thumb

import Thumb.Proofs.Comment
import Thumb.Proofs.DataImage
import Thumb.Proofs.SpelledConstant

namespace Thumb

def escapeChar : Char → List Char
  | '\\' => ['\\', '\\']
  | '"' => ['\\', '"']
  | '\n' => ['\\', 'n']
  | '\t' => ['\\', 't']
  | '\r' => ['\\', 'r']
  | '\x00' => ['\\', '0']
  | c => [c]

def escape (cs : List Char) : List Char :=
  cs.flatMap escapeChar

theorem escape_cons (c : Char) (cs : List Char) : escape (c :: cs) = escapeChar c ++ escape cs :=
  List.flatMap_cons

inductive Escape : Char → Char → Prop
  | backslash : Escape '\\' '\\'
  | quote : Escape '"' '"'
  | newline : Escape '\n' 'n'
  | tab : Escape '\t' 't'
  | carriageReturn : Escape '\r' 'r'
  | nul : Escape '\x00' '0'

theorem Escape.escapedChar {c letter : Char} (h : Escape c letter) :
    Thumb.escapedChar letter = c := by
  cases h <;> rfl

theorem Escape.quote_iff {c letter : Char} (h : Escape c letter) : letter = '"' ↔ c = '"' := by
  cases h <;> decide

theorem escapeChar_cases (c : Char) :
    (escapeChar c = [c] ∧ ∀ letter, ¬Escape c letter) ∨
      ∃ letter, escapeChar c = ['\\', letter] ∧ Escape c letter := by
  unfold escapeChar
  split
  case h_1 => exact .inr ⟨_, rfl, .backslash⟩
  case h_2 => exact .inr ⟨_, rfl, .quote⟩
  case h_3 => exact .inr ⟨_, rfl, .newline⟩
  case h_4 => exact .inr ⟨_, rfl, .tab⟩
  case h_5 => exact .inr ⟨_, rfl, .carriageReturn⟩
  case h_6 => exact .inr ⟨_, rfl, .nul⟩
  case h_7 hbackslash hquote hnewline htab hreturn hnul =>
    refine .inl ⟨rfl, ?_⟩
    intro letter h
    cases h with
    | backslash => exact hbackslash rfl
    | quote => exact hquote rfl
    | newline => exact hnewline rfl
    | tab => exact htab rfl
    | carriageReturn => exact hreturn rfl
    | nul => exact hnul rfl

theorem unescape_cons {c : Char} (h : c ≠ '\\') (cs : List Char) :
    unescape (c :: cs) = c :: unescape cs := by
  rw [unescape]
  rintro d rest rfl
  exact absurd rfl h

theorem unescape_escape_append (cs more : List Char) :
    unescape (escape cs ++ more) = cs ++ unescape more := by
  induction cs with
  | nil => rfl
  | cons c cs ih =>
    rw [escape_cons, List.append_assoc]
    rcases escapeChar_cases c with ⟨hsame, hother⟩ | ⟨letter, hpair, hletter⟩
    · have hc : c ≠ '\\' := by
        rintro rfl
        exact hother _ .backslash
      rw [hsame, List.singleton_append, unescape_cons hc, ih, List.cons_append]
    · rw [hpair, List.cons_append, List.singleton_append, unescape, hletter.escapedChar, ih,
        List.cons_append]

theorem unescape_escape (cs : List Char) : unescape (escape cs) = cs := by
  have h := unescape_escape_append cs []
  rwa [List.append_nil, unescape, List.append_nil] at h

theorem newline_not_mem_escape (cs : List Char) : '\n' ∉ escape cs := by
  intro h
  obtain ⟨c, _, hc⟩ := List.mem_flatMap.mp h
  rcases escapeChar_cases c with ⟨hsame, hother⟩ | ⟨letter, hpair, hletter⟩
  · rw [hsame, List.mem_singleton] at hc
    subst hc
    exact hother _ .newline
  · rw [hpair] at hc
    cases hletter <;> exact absurd hc (by decide)

theorem exists_of_quote_in_escape {before cs : List Char} (h : before ++ ['"'] <+: escape cs) :
    ∃ front, front ++ ['"'] <+: cs ∧ before = escape front ++ ['\\'] := by
  induction cs generalizing before with
  | nil => exact absurd (List.prefix_nil.mp h) (List.append_ne_nil_of_right_ne_nil _ (by simp))
  | cons c cs ih =>
    rw [escape_cons] at h
    rcases escapeChar_cases c with ⟨hsame, hother⟩ | ⟨letter, hpair, hletter⟩
    · rw [hsame, List.singleton_append] at h
      cases before with
      | nil =>
        obtain ⟨rfl, _⟩ := List.cons_prefix_cons.mp h
        exact absurd .quote (hother _)
      | cons x before =>
        obtain ⟨rfl, htail⟩ := List.cons_prefix_cons.mp h
        obtain ⟨front, hfront, rfl⟩ := ih htail
        refine ⟨x :: front, List.cons_prefix_cons.mpr ⟨rfl, hfront⟩, ?_⟩
        rw [escape_cons, hsame]
        rfl
    · rw [hpair, List.cons_append, List.singleton_append] at h
      match before with
      | [] => exact absurd (List.cons_prefix_cons.mp h).1 (by decide)
      | [x] =>
        obtain ⟨rfl, htail⟩ := List.cons_prefix_cons.mp h
        cases hletter.quote_iff.mp (List.cons_prefix_cons.mp htail).1.symm
        exact ⟨[], by simp, rfl⟩
      | x :: y :: before =>
        obtain ⟨rfl, htail⟩ := List.cons_prefix_cons.mp h
        obtain ⟨rfl, hmore⟩ := List.cons_prefix_cons.mp htail
        obtain ⟨front, hfront, rfl⟩ := ih hmore
        refine ⟨c :: front, List.cons_prefix_cons.mpr ⟨rfl, hfront⟩, ?_⟩
        rw [escape_cons, hpair]
        rfl

namespace Source

namespace Nesting

/-- A text that closes what is open and what it opens, and has no comma outside brackets and quotes
and no semicolon outside quotes. -/
structure Sealed (n : Nesting) (cs : List Char) : Prop where
  closes : n.Closes cs
  comma : ∀ e ∈ n.mark cs, e.1 = ',' → e.2 ≠ {}
  semicolon : ∀ e ∈ n.mark cs, e.1 = ';' → e.2.quote ≠ none

instance (n : Nesting) (cs : List Char) : Decidable (n.Sealed cs) :=
  decidable_of_iff (n.Closes cs ∧ (∀ e ∈ n.mark cs, e.1 = ',' → e.2 ≠ {}) ∧
      ∀ e ∈ n.mark cs, e.1 = ';' → e.2.quote ≠ none)
    ⟨fun ⟨h, h', h''⟩ => ⟨h, h', h''⟩, fun ⟨h, h', h''⟩ => ⟨h, h', h''⟩⟩

variable {n : Nesting} {c : Char} {cs : List Char}

theorem sealed_nil : n.Sealed [] ↔ n = {} := by
  rw [← closes_nil]
  exact ⟨Sealed.closes, fun h => ⟨h, List.forall_mem_nil _, List.forall_mem_nil _⟩⟩

theorem sealed_cons : n.Sealed (c :: cs) ↔
    n.Possible ∧ ¬(c = ',' ∧ n = {}) ∧ ¬(c = ';' ∧ n.quote = none) ∧ (n.after c).Sealed cs := by
  constructor
  · rintro ⟨hcloses, hcomma, hsemicolon⟩
    obtain ⟨hdepth, hcloses⟩ := closes_cons.mp hcloses
    obtain ⟨hc, hcomma⟩ := List.forall_mem_cons.mp hcomma
    obtain ⟨hc', hsemicolon⟩ := List.forall_mem_cons.mp hsemicolon
    exact ⟨hdepth, not_and.mpr hc, not_and.mpr hc', hcloses, hcomma, hsemicolon⟩
  · rintro ⟨hdepth, hc, hc', hcloses, hcomma, hsemicolon⟩
    exact ⟨closes_cons.mpr ⟨hdepth, hcloses⟩, List.forall_mem_cons.mpr ⟨not_and.mp hc, hcomma⟩,
      List.forall_mem_cons.mpr ⟨not_and.mp hc', hsemicolon⟩⟩

theorem sealed_iff : n.Sealed cs ↔
    n.Closes cs ∧ n.parts cs = [cs] ∧ uncommented n.quote cs = cs := by
  induction cs generalizing n with
  | nil =>
    rw [sealed_nil, closes_nil]
    exact ⟨fun h => ⟨h, rfl, rfl⟩, And.left⟩
  | cons c cs ih =>
    rw [sealed_cons, closes_cons, ih, after_quote]
    by_cases hcomma : c = ',' ∧ n = {}
    · obtain ⟨rfl, rfl⟩ := hcomma
      rw [parts_comma]
      simp [parts_ne_nil]
    · rw [parts_cons hcomma, uncommented]
      by_cases hsemicolon : c = ';' ∧ n.quote = none
      · simp [hsemicolon]
      · obtain ⟨first, rest, hparts⟩ := List.exists_cons_of_ne_nil (parts_ne_nil (n.after c) cs)
        have hno : ¬(n.quote.isNone && c == ';') = true := by
          simpa [and_comm] using hsemicolon
        rw [if_neg hno, hparts]
        simp [hcomma, hsemicolon, and_assoc]

theorem after_letter {letter : Char} (hn : OpenQuote n.quote) (h : Escape c letter) :
    n.after letter = n.after c := by
  cases h with
  | backslash => rfl
  | quote => rfl
  | newline => rw [after_of_not_mem hn (by decide), after_of_not_mem hn (by decide)]
  | tab => rw [after_of_not_mem hn (by decide), after_of_not_mem hn (by decide)]
  | carriageReturn => rw [after_of_not_mem hn (by decide), after_of_not_mem hn (by decide)]
  | nul => rw [after_of_not_mem hn (by decide), after_of_not_mem hn (by decide)]

/-- How a character is written makes no difference to what cuts a line. -/
theorem sealed_escape (hn : OpenQuote n.quote) (cs more : List Char) :
    n.Sealed (escape cs ++ more) ↔ n.Sealed (cs ++ more) := by
  induction cs generalizing n with
  | nil => rfl
  | cons c cs ih =>
    have hafter : OpenQuote (n.after c).quote := after_quote n c ▸ hn.after c
    have hcons : n.Sealed (c :: (cs ++ more)) ↔ _ := sealed_cons
    rw [escape_cons, List.append_assoc, List.cons_append, hcons]
    rcases escapeChar_cases c with ⟨hsame, _⟩ | ⟨letter, hpair, hletter⟩
    · rw [hsame, List.singleton_append, sealed_cons, ih hafter]
    · rw [hpair, List.cons_append, List.singleton_append, sealed_cons, sealed_cons,
        after_of_not_mem hn (by decide), after_letter hn hletter, ih hafter]
      cases hletter <;> simp

theorem sealed_of_no_quote (h : '"' ∉ cs) : Sealed ⟨0, some '"'⟩ (cs ++ ['"']) := by
  induction cs with
  | nil => decide
  | cons c cs ih =>
    rw [List.mem_cons, not_or] at h
    have hafter : after ⟨0, some '"'⟩ c = ⟨0, some '"'⟩ := if_neg (Ne.symm h.1)
    rw [List.cons_append, sealed_cons, hafter]
    exact ⟨by decide, by simp, by simp, ih h.2⟩

end Nesting

def quoted (cs : List Char) : List Char :=
  '"' :: (escape cs ++ ['"'])

def textLine (cs : List Char) : List Char :=
  [' ', 'D', 'C', 'B', ' '] ++ quoted cs

/-- The quotes and brackets of a text pair up, together with the quotes around it, and no comma is
outside both and no semicolon outside quotes. -/
def Enclosed (cs : List Char) : Prop :=
  Nesting.Sealed {} ('"' :: (cs ++ ['"']))

instance (cs : List Char) : Decidable (Enclosed cs) :=
  inferInstanceAs (Decidable (Nesting.Sealed _ _))

section Quoted

variable {cs : List Char}

theorem enclosed_of_no_quote (h : '"' ∉ cs) : Enclosed cs :=
  Nesting.sealed_cons.mpr
    ⟨Nesting.possible_start, by decide, by decide, Nesting.sealed_of_no_quote h⟩

theorem sealed_quoted_iff : Nesting.Sealed {} (quoted cs) ↔ Enclosed cs := by
  have hquote : OpenQuote (some '"') := by
    rintro _ ⟨rfl⟩
    rfl
  have hescape := Nesting.sealed_escape (n := ⟨0, some '"'⟩) hquote cs ['"']
  rw [quoted, Enclosed, Nesting.sealed_cons, Nesting.sealed_cons]
  exact and_congr_right' (and_congr_right' (and_congr_right' hescape))

theorem unquote?_quoted (cs : List Char) : unquote? (quoted cs) = some (escape cs) := by
  rw [quoted, unquote?, if_pos List.getLast?_concat, List.dropLast_concat]

theorem splitOperands_trim (text : List Char) :
    splitOperands (Text.trim text) = splitOperands text := by
  rw [splitOperands, Text.trim_trim]
  rfl

theorem content_textLine (cs : List Char) : content (textLine cs) =
    'D' :: 'C' :: 'B' :: ' ' :: Text.trim (uncommented none (quoted cs)) := by
  obtain ⟨rest, hrest⟩ : ∃ rest, uncommented none (quoted cs) = '"' :: rest := ⟨_, rfl⟩
  have hline : content (textLine cs) =
      Text.trimEnd ('D' :: 'C' :: 'B' :: ' ' :: uncommented none (quoted cs)) := rfl
  have hquote : Text.trim ('"' :: rest) = Text.trimEnd ('"' :: rest) := rfl
  rw [hline, hrest, hquote]
  simp [trimEnd_cons, Text.isBlank]

theorem parseBody_bytes {text : List Char} {s : Statement} :
    parseBody none ('D' :: 'C' :: 'B' :: ' ' :: text) = .ok s ↔
      ∃ ops, splitOperands text = some ops ∧ s = .record none "DCB" ops := by
  have hblank : Text.splitBlank ('D' :: 'C' :: 'B' :: ' ' :: text) = (['D', 'C', 'B'], text) := rfl
  have hknown : isKnown ['D', 'C', 'B'] = true := by decide
  have hword : upperText ['D', 'C', 'B'] = "DCB" := by decide
  unfold parseBody
  rw [hblank]
  dsimp only
  rw [hknown, hword]
  cases splitOperands text with
  | none =>
    constructor
    · intro h
      cases h
    · rintro ⟨ops, hops, _⟩
      cases hops
  | some ops => simp [ignoredDirectives, pure, Except.pure, eq_comm]

theorem parseStatement_textLine {s : Statement} : parseStatement (textLine cs) = .ok s ↔
    ∃ ops, splitOperands (uncommented none (quoted cs)) = some ops ∧
      s = .record none "DCB" ops := by
  have hcontent := content_textLine cs
  rw [← splitOperands_trim]
  generalize Text.trim (uncommented none (quoted cs)) = text at hcontent
  have hlabel : splitLabel (textLine cs) ('D' :: 'C' :: 'B' :: ' ' :: text) =
      .ok (none, 'D' :: 'C' :: 'B' :: ' ' :: text) := by
    have hknown : isKnown ['D', 'C', 'B'] = true := by decide
    have hhead : (Text.splitBlank ('D' :: 'C' :: 'B' :: ' ' :: text)).1 = ['D', 'C', 'B'] := rfl
    unfold splitLabel
    dsimp only
    rw [hhead, hknown]
    rfl
  have hbody : parseStatement (textLine cs) =
      parseBody none ('D' :: 'C' :: 'B' :: ' ' :: text) := by
    rw [content] at hcontent
    unfold parseStatement
    dsimp only
    rw [hcontent, hlabel]
    rfl
  rw [hbody, parseBody_bytes]

theorem splitOperands_quoted (h : Enclosed cs) :
    splitOperands (uncommented none (quoted cs)) = some [String.ofList (quoted cs)] := by
  obtain ⟨hcloses, hparts, hkept⟩ := Nesting.sealed_iff.mp (sealed_quoted_iff.mpr h)
  have hfull : ¬∀ c ∈ quoted cs, Text.isBlank c = true :=
    fun hblank => absurd (hblank '"' (.head _)) (by decide)
  have htrim : Text.trim (quoted cs) = quoted cs := Text.trim_enclosed rfl rfl _
  have hkept' : uncommented none (quoted cs) = quoted cs := hkept
  rw [hkept', splitOperands_eq_some_iff]
  refine .inr ⟨hcloses, ?_, ?_⟩
  · rw [hparts]
    exact List.forall_mem_singleton.mpr hfull
  · rw [hparts, List.map_singleton, htrim]

theorem eq_of_unquote? {text mid : List Char} (h : unquote? text = some mid) :
    text = '"' :: (mid ++ ['"']) := by
  unfold unquote? at h
  split at h
  case h_1 rest =>
    split at h
    case isTrue hlast =>
      cases h
      rw [List.dropLast_append_getLast? _ hlast]
    case isFalse => cases h
  case h_2 => cases h

theorem Nesting.parts_start {n : Nesting} {text first : List Char} {rest : List (List Char)}
    (h : n.parts text = first :: rest) : first <+: text := by
  rw [← intercalate_parts n text, h]
  cases rest with
  | nil => simp [List.intercalate]
  | cons second rest => simp [List.intercalate]

theorem Nesting.eq_nil_of_parts {n : Nesting} {text : List Char} {rest : List (List Char)}
    (h : n.parts text = text :: rest) : rest = [] := by
  have hjoin := intercalate_parts n text
  rw [h] at hjoin
  cases rest with
  | nil => rfl
  | cons second rest => simp [List.intercalate] at hjoin

/-- If all that was written is in the first operand, then neither a comment nor another operand
comes after it. -/
theorem enclosed_of_first {first : List Char} {rest : List (List Char)}
    (hcloses : Nesting.Closes {} (uncommented none (quoted cs)))
    (hparts : Nesting.parts {} (uncommented none (quoted cs)) = first :: rest)
    (h : quoted cs <+: first) : Enclosed cs := by
  have hfirst := Nesting.parts_start hparts
  have hkept : uncommented none (quoted cs) = quoted cs :=
    (uncommented_start none _).eq_of_length_le (h.trans hfirst).length_le
  rw [hkept] at hcloses hparts hfirst
  have hone : first = quoted cs := hfirst.eq_of_length_le h.length_le
  rw [hone] at hparts
  rw [Nesting.eq_nil_of_parts hparts] at hparts
  exact sealed_quoted_iff.mp (Nesting.sealed_iff.mpr ⟨hcloses, hparts, hkept⟩)

/-- The first operand starts with the quote. If it is a text, then it is all that was written, or it
ends at a quote of the text that is written. -/
theorem first_operand {ops : List String}
    (h : splitOperands (uncommented none (quoted cs)) = some ops) :
    ∃ op rest, ops = op :: rest ∧ op.toList.head? = some '"' ∧ Text.trim op.toList = op.toList ∧
      ∀ mid, unquote? op.toList = some mid →
        Enclosed cs ∨ ∃ front, front ++ ['"'] <+: cs ∧ unescape mid = front ++ ['\\'] := by
  obtain ⟨tail, htail⟩ : ∃ tail, uncommented none (quoted cs) = '"' :: tail := ⟨_, rfl⟩
  rcases splitOperands_eq_some_iff.mp h with ⟨hblank, _⟩ | ⟨hcloses, _, rfl⟩
  · rw [htail] at hblank
    exact absurd (hblank '"' (.head _)) (by decide)
  obtain ⟨first, rest, hparts⟩ : ∃ first rest,
      Nesting.parts {} (uncommented none (quoted cs)) = ('"' :: first) :: rest := by
    obtain ⟨first, rest, hparts⟩ := List.exists_cons_of_ne_nil
      (Nesting.parts_ne_nil (Nesting.after {} '"') tail)
    refine ⟨first, rest, ?_⟩
    rw [htail, Nesting.parts_cons (by decide), hparts, List.modifyHead_cons]
  have htrim : Text.trim ('"' :: first) = Text.trimEnd ('"' :: first) := rfl
  have hstart : Text.trim ('"' :: first) <+: '"' :: first := Text.trim_prefix ('"' :: first)
  refine ⟨String.ofList (Text.trim ('"' :: first)),
    rest.map fun part => String.ofList (Text.trim part), ?_, ?_, ?_, ?_⟩
  · rw [hparts, List.map_cons]
  · rw [String.toList_ofList, htrim, trimEnd_cons, if_neg (by simp [Text.isBlank])]
    rfl
  · rw [String.toList_ofList, Text.trim_trim]
  · intro mid hmid
    rw [String.toList_ofList] at hmid
    rw [eq_of_unquote? hmid] at hstart
    have hbegin : '"' :: (mid ++ ['"']) <+: quoted cs :=
      (hstart.trans (Nesting.parts_start hparts)).trans (uncommented_start none _)
    rcases List.prefix_concat_iff.mp (List.cons_prefix_cons.mp hbegin).2 with hall | hcut
    · rw [hall] at hstart
      exact .inl (enclosed_of_first hcloses hparts hstart)
    · obtain ⟨front, hfront, rfl⟩ := exists_of_quote_in_escape hcut
      exact .inr ⟨front, hfront, unescape_escape_append front ['\\']⟩

end Quoted

def bytesRecord (ops : List String) : Record :=
  { label := none, mnemonic := "DCB", operands := ops, line := 1 }

def bytesProgram (a : Area) (ops : List String) : Program :=
  { areas := [{ a with records := [bytesRecord ops] }] }

theorem parse_textLine {source : String} {header cs : List Char} {a : Area} {p : Program}
    (hsource : Text.lines source.toList = [header, textLine cs])
    (hheader : parseStatement header = .ok (.area a)) :
    parse source = .ok p ↔
      ∃ ops, splitOperands (uncommented none (quoted cs)) = some ops ∧ p = bytesProgram a ops := by
  have hrecords : a.records = [] := by
    cases tells_of_parseStatement hheader with
    | area _ _ records => exact records
  cases hline : parseStatement (textLine cs) with
  | error e =>
    have hparse : parse source = .error (.statement 1 e) := by
      rw [parse, hsource, statements, hheader]
      dsimp only
      rw [statements, hline]
      rfl
    rw [hparse]
    constructor
    · intro h
      cases h
    · rintro ⟨ops, hops, _⟩
      cases hline.symm.trans (parseStatement_textLine.mpr ⟨ops, hops, rfl⟩)
  | ok s =>
    obtain ⟨ops, hops, rfl⟩ := parseStatement_textLine.mp hline
    have hparse : parse source = .ok (bytesProgram a ops) := by
      rw [parse, hsource, statements, hheader]
      dsimp only
      rw [statements, hline]
      obtain ⟨name, kind, readOnly, records⟩ := a
      cases hrecords
      rfl
    rw [hparse, hops]
    simp [eq_comm]

end Source

namespace Object

def ofBytes (a : Area) (bytes : List Byte) : Object where
  content := bytes
  sections := [{ kind := a.kind, name := a.name, offset := 0, size := bytes.length }]
  marks := [{ index := 0, offset := 0, line := 1 }]

theorem ofProgram_quoted (a : Area) (cs : List Char) :
    ofProgram (Source.bytesProgram a [String.ofList (Source.quoted cs)]) =
      .ok (ofBytes a (utf8 cs)) := by
  let r := Source.bytesRecord [String.ofList (Source.quoted cs)]
  have hoperand (d : Draft) :
      Draft.dataOperand .byte r d (String.ofList (Source.quoted cs)) = .ok (d.emit (utf8 cs)) := by
    unfold Draft.dataOperand
    rw [String.toList_ofList, Source.unquote?_quoted]
    dsimp only
    rw [unescape_escape]
  let d : Draft := (({} : Draft).mark 1).emit (utf8 cs)
  have hkind : r.kind = .data .byte := rfl
  have halign : ({} : Draft).align r.kind.alignment = {} := by
    rw [hkind]
    rfl
  have hrecord : Draft.record {} r = .ok d := by
    refine bind_ok_iff.mpr ⟨{}, congrArg Except.ok halign, ?_⟩
    unfold Draft.body
    rw [hkind]
    exact bind_ok_iff.mpr ⟨d, hoperand _, rfl⟩
  have harea : Draft.area {} { a with records := [r] } = .ok (d.finish a) :=
    bind_ok_iff.mpr ⟨d, bind_ok_iff.mpr ⟨d, hrecord, rfl⟩, rfl⟩
  exact bind_ok_iff.mpr
    ⟨{}, rfl, bind_ok_iff.mpr ⟨d.finish a, bind_ok_iff.mpr ⟨_, harea, rfl⟩, rfl⟩⟩

/-- The code segment of an executable without code: the vector table and an end marker. -/
def noCode : List Byte :=
  codeRun.pad (vectorTable ++ codeRun.trailer)

def dataContent (bytes : List Byte) : List Byte :=
  noCode ++ (bytes ++ List.replicate (padding 4 bytes.length) 0)

def dataImage (bytes : List Byte) : Executable where
  segments := segments noCode.length (dataContent bytes).length
  content := dataContent bytes
  lines := Table.empty.insert AddressMap.ramOrigin 1

theorem link_ofBytes {a : Area} (ha : a.kind = .data) (bytes : List Byte) :
    (ofBytes a bytes).link = .ok (dataImage bytes) := by
  obtain ⟨name, kind, readOnly, records⟩ := a
  cases ha
  generalize ho : ofBytes ⟨name, .data, readOnly, records⟩ bytes = o
  let s : Section := { kind := .data, name, offset := 0, size := bytes.length }
  let l : Layout := ⟨dataContent bytes, Table.empty.insert 0 ⟨AddressMap.ramOrigin, noCode.length⟩⟩
  have hbytes : o.bytesOf s = .ok bytes := by
    rw [← ho, bytesOf, if_pos (by simp [s, ofBytes])]
    simp [ofBytes, s]
  have hcode : o.placeCode = .ok { content := noCode } := by
    rw [← ho]
    rfl
  have hdata : o.placeData { content := noCode } = .ok l := by
    have hsections : o.sectionsOf .data = [(s, 0)] := by
      rw [← ho]
      rfl
    have hadd := @Run.add_eq (dataRun noCode.length) .data o { content := noCode } s 0 bytes rfl
      (by decide) (by decide) hbytes
    have hblock : SectionKind.data.block bytes =
        bytes ++ List.replicate (padding 4 bytes.length) 0 := by
      simp [SectionKind.block, SectionKind.trailer]
    rw [placeData, hsections, List.foldlM_cons, hadd, hblock]
    rfl
  refine bind_ok_iff.mpr ⟨_, hcode, bind_ok_iff.mpr ⟨l, hdata, ?_⟩⟩
  rw [← ho]
  rfl

theorem emits_first {a : Area} (ha : a.kind = .data) {op : String} {rest : List String} {o : Object}
    {x : Executable} (ho : ofProgram (Source.bytesProgram a (op :: rest)) = .ok o)
    (hx : o.link = .ok x) :
    ∃ piece, (Source.bytesProgram a (op :: rest)).Emits o .byte op piece ∧
      noCode ++ piece <+: x.content := by
  let r := Source.bytesRecord (op :: rest)
  have hkind : r.kind = .data .byte := rfl
  have hat : o.RecordAt (Source.bytesProgram a (op :: rest)) 0 0 r (o.addressOf 0) := by
    refine ⟨⟨_, rfl, rfl⟩, {}, rfl, ?_⟩
    rw [hkind]
    rfl
  have hform := ofProgram_wellFormed ho
  obtain ⟨bytes, hrel, rfl⟩ := link_eq_ok hform hx
  obtain ⟨s, offset, pieces, hs, hoffset, hpieces, _, hslice⟩ := hat.data ho hrel hkind
  obtain rfl : offset = 0 := by omega
  obtain ⟨s', hsections, hs'⟩ := List.map_eq_singleton_iff.mp hform.areas
  have hdata : s'.kind = .data := (congrArg Prod.snd hs').trans ha
  have himage : o.image bytes = noCode ++ SectionKind.data.block (bytes 0) := by
    have hcode : o.sectionsOf .code = [] := by simp [sectionsOf, hsections, hdata]
    have hall : o.sectionsOf .data = [(s', 0)] := by simp [sectionsOf, hsections, hdata]
    rw [image, codeImage, if_pos hcode, blocks, hall, List.flatMap_singleton]
    rfl
  have hflat : pieces.flatten <+: bytes 0 := by
    have htake := List.take_prefix pieces.flatten.length ((bytes 0).drop 0)
    rwa [hslice, List.drop_zero] at htake
  cases hpieces with
  | cons hpiece _ =>
    refine ⟨_, hpiece, ?_⟩
    rw [List.flatten_cons] at hflat
    rw [himage, List.prefix_append_right_inj, SectionKind.block, List.append_assoc]
    exact ((List.prefix_append _ _).trans hflat).trans (List.prefix_append _ _)

end Object

theorem utf8_append (cs more : List Char) : utf8 (cs ++ more) = utf8 cs ++ utf8 more := by
  rw [utf8, List.flatMap_append, List.map_append]
  rfl

def textBytes (s : String) : List Byte :=
  s.toUTF8.data.toList.map (·.toBitVec)

theorem utf8_toList (s : String) : utf8 s.toList = textBytes s := by
  rw [textBytes, String.toUTF8_eq_toByteArray, ← String.utf8Encode_toList, List.utf8Encode,
    List.data_toByteArray]
  rfl

theorem textBytes_ne_nil {s : String} (h : s ≠ "") : textBytes s ≠ [] := by
  rw [← utf8_toList]
  cases hs : s.toList with
  | nil => exact absurd (String.toList_eq_nil_iff.mp hs) h
  | cons c cs =>
    have hpos := c.utf8Size_pos
    intro hnil
    have hlength := congrArg List.length hnil
    simp only [utf8, List.flatMap_cons, List.map_append, List.length_append, List.length_map,
      String.length_utf8EncodeChar, List.length_nil] at hlength
    omega

namespace Source

theorem not_denotes {a : Area} {ops : List String} {o : Object} {op : String} {v : Int}
    (hhead : op.toList.head? = some '"') (htrim : Text.trim op.toList = op.toList) :
    ¬(bytesProgram a ops).Denotes o op v := by
  obtain ⟨tail, htail⟩ := List.head?_eq_some_iff.mp hhead
  intro h
  cases h with
  | number value =>
    have hnumber : Operand.number? op = none := by
      rw [Operand.number?, htrim, htail]
      rfl
    have hhashes : dropHashes op.toList = op.toList := by
      rw [htail]
      rfl
    have hname : String.ofList (dropHashes (Text.trim op.toList)) = op := by
      rw [htrim, hhashes, String.ofList_toList]
    rw [Program.number?, hname, hnumber] at value
    cases value
  | label _ area record name =>
    cases List.mem_singleton.mp (List.mem_of_getElem? area)
    cases List.mem_singleton.mp (List.mem_of_getElem? record)
    cases name
  | literal _ name =>
    rw [Text.trimmed, htrim, Object.isProgramSymbol, String.toList_ofList, htail] at name
    cases name

/-- If the executable has the bytes of a text, then the line has them all in its first operand. -/
theorem enclosed_of_content {source : String} {header cs : List Char} {a : Area} {x : Executable}
    (hsource : Text.lines source.toList = [header, textLine cs])
    (hheader : parseStatement header = .ok (.area a)) (hkind : a.kind = .data)
    (hx : assemble source = .ok x) (hcontent : x.content = Object.dataContent (utf8 cs)) :
    Enclosed cs := by
  obtain ⟨p, hp, hobject⟩ := bind_ok_iff.mp hx
  obtain ⟨o, ho, hlink⟩ := bind_ok_iff.mp hobject
  obtain ⟨ops, hops, rfl⟩ := (parse_textLine hsource hheader).mp hp
  obtain ⟨op, rest, rfl, hhead, htrim, hcut⟩ := first_operand hops
  obtain ⟨piece, hpiece, hbegin⟩ := Object.emits_first hkind ho hlink
  cases hpiece with
  | value _ denotes => exact absurd denotes (not_denotes hhead htrim)
  | @text _ mid hmid =>
    rcases hcut mid hmid with henclosed | ⟨front, ⟨more, rfl⟩, hread⟩
    · exact henclosed
    · -- The text was cut at a quote, and the backslash before it is left over.
      rw [hcontent, Object.dataContent, List.prefix_append_right_inj, hread, utf8_append,
        utf8_append, utf8_append, List.append_assoc, List.append_assoc,
        List.prefix_append_right_inj] at hbegin
      exact absurd (List.cons_prefix_cons.mp hbegin).1 (by decide)

/-- Wherever a text stands in a source that is assembled, its bytes are at the address of its
line. -/
def EmitsText (s : String) : Prop :=
  ∀ source p o x n, parse source = .ok p → Object.ofProgram p = .ok o → o.link = .ok x →
    x.content.length < 0x18000000 →
    (toEnd (Text.lines source.toList))[n]? = some (textLine s.toList) →
    ∃ i j r address, o.RecordAt p i j r address ∧ r.line = n ∧
      (s ≠ "" → x.bytesAt (BitVec.ofNat 32 address) (textBytes s).length = .ok (some (textBytes s)))

theorem exists_record_of_textLine {source : String} {p : Program} (hp : parse source = .ok p)
    {cs : List Char} (h : Enclosed cs) {n : Nat}
    (hn : (toEnd (Text.lines source.toList))[n]? = some (textLine cs)) :
    ∃ r ∈ p.records, r.line = n ∧ r.kind = .data .byte ∧
      r.operands = [String.ofList (quoted cs)] := by
  have hline := parseStatement_textLine.mpr ⟨_, splitOperands_quoted h, rfl⟩
  have htells := tells_of_parseStatement hline
  generalize hs : Statement.record none "DCB" [String.ofList (quoted cs)] = s at htells
  cases htells with
  | record kind operands =>
    injection hs with _ hword hops
    obtain ⟨ss, hss, rfl⟩ := map_ok_iff.mp hp
    have hrecords := (transcribes_of_tellsAll (tellsAll_of_statements hss)).records
    obtain ⟨r, hr, hof⟩ := exists_of_mem hrecords (a := (textLine cs, n))
      (List.mem_filter.mpr ⟨List.mem_zipIdx_iff_getElem?.mpr hn, decide_eq_true kind⟩)
    refine ⟨r, List.mem_of_mem_filter hr, hof.line, ?_, ?_⟩
    · rw [Record.kind, hof.mnemonic, ← hword]
      rfl
    · rw [← hops] at operands
      exact Option.some.inj (hof.operands.symm.trans operands)
  | _ => cases hs

theorem emits_quoted {p : Program} {o : Object} {cs : List Char} {piece : List Byte}
    (h : p.Emits o .byte (String.ofList (quoted cs)) piece) : piece = utf8 cs := by
  have hquoted : unquote? (String.ofList (quoted cs)).toList = some (escape cs) := by
    rw [String.toList_ofList, unquote?_quoted]
  cases h with
  | text quoted =>
    cases quoted.symm.trans hquoted
    rw [unescape_escape]
  | value plain => cases (plain rfl).symm.trans hquoted

theorem emitsText {s : String} (h : Enclosed s.toList) : EmitsText s := by
  intro source p o x n hp ho hx hsize hn
  obtain ⟨r, hr, hline, hkind, hops⟩ := exists_record_of_textLine hp h hn
  obtain ⟨a, ha, hr⟩ := List.mem_flatMap.mp hr
  obtain ⟨i, hi⟩ := List.getElem?_of_mem ha
  obtain ⟨j, hj⟩ := List.getElem?_of_mem hr
  have hdata := Object.dataOf_of_link ho hx hsize
  obtain ⟨address, _, hat⟩ := hdata.placed i j a r hi hj
  refine ⟨i, j, r, address, hat, hline, ?_⟩
  intro hne
  obtain ⟨pieces, hpieces, hbytes⟩ := hdata.emitted i j r address .byte hat hkind
  rw [hops] at hpieces
  cases hpieces with
  | cons hpiece hrest =>
    cases hrest
    rw [emits_quoted hpiece, utf8_toList, List.flatten_singleton] at hbytes
    exact hbytes (textBytes_ne_nil hne)

theorem newline_not_mem_textLine (cs : List Char) : '\n' ∉ textLine cs := by
  have hescape := newline_not_mem_escape cs
  simp [textLine, quoted, hescape]

/-- After the line of an area for data, a text in quotes becomes exactly its bytes if it is enclosed
by them, as it is where it has no double quote of its own. Otherwise it is refused or becomes other
bytes. -/
theorem quoted_text_bytes (s : String) (header : List Char) (a : Area) (hline : '\n' ∉ header)
    (hheader : parseStatement (Text.dropReturn header) = .ok (.area a)) (hkind : a.kind = .data) :
    let source := String.ofList (header ++ '\n' :: textLine s.toList)
    ('"' ∉ s.toList → Enclosed s.toList) ∧
    (Enclosed s.toList → assemble source = .ok (Object.dataImage (textBytes s)) ∧ EmitsText s) ∧
    ∀ x, assemble source = .ok x → x.content = Object.dataContent (textBytes s) →
      Enclosed s.toList := by
  intro source
  have hsource : Text.lines source.toList = [Text.dropReturn header, textLine s.toList] := by
    rw [String.toList_ofList, lines_append hline,
      lines_last (newline_not_mem_textLine _) (List.cons_ne_nil _ _)]
  refine ⟨enclosed_of_no_quote, ?_, ?_⟩
  · intro h
    refine ⟨?_, emitsText h⟩
    have hparse := (parse_textLine hsource hheader).mpr ⟨_, splitOperands_quoted h, rfl⟩
    rw [← utf8_toList]
    exact bind_ok_iff.mpr ⟨_, hparse, bind_ok_iff.mpr
      ⟨_, Object.ofProgram_quoted a s.toList, Object.link_ofBytes hkind _⟩⟩
  · intro x hx hcontent
    rw [← utf8_toList] at hcontent
    exact enclosed_of_content hsource hheader hkind hx hcontent

/-- A pair of quotes, and all that would cut a line or a list of operands. -/
theorem quoted_text_bytes_special :
    let s := "\"\"a,b;'[#\\\n\té"
    let source := " AREA d, DATA\r\n DCB \"\\\"\\\"a,b;'[#\\\\\\n\\té\""
    source = String.ofList (" AREA d, DATA\r".toList ++ '\n' :: textLine s.toList) ∧
    assemble source = .ok (Object.dataImage
      [0x22, 0x22, 0x61, 0x2C, 0x62, 0x3B, 0x27, 0x5B, 0x23, 0x5C, 0x0A, 0x09, 0xC3, 0xA9]) ∧
    EmitsText s := by
  intro s source
  have hsource :
      source = String.ofList (" AREA d, DATA\r".toList ++ '\n' :: textLine s.toList) := by
    decide
  have henclosed : Enclosed s.toList := by decide
  have hbytes : textBytes s =
      [0x22, 0x22, 0x61, 0x2C, 0x62, 0x3B, 0x27, 0x5B, 0x23, 0x5C, 0x0A, 0x09, 0xC3, 0xA9] := by
    decide
  obtain ⟨_, htext, _⟩ := quoted_text_bytes s " AREA d, DATA\r".toList ⟨"d", .data, false, []⟩
    (by decide) rfl rfl
  rw [hbytes, ← hsource] at htext
  exact ⟨hsource, htext henclosed⟩

/-- One quote is refused. A quote before a semicolon is lost with what follows it, and the backslash
that was written for it stays. -/
theorem quoted_text_with_quote :
    let source := " AREA d, DATA\n DCB \"\\\"\""
    let cut := " AREA d, DATA\n DCB \"a\\\";\""
    (source = String.ofList (" AREA d, DATA".toList ++ '\n' :: textLine ['"']) ∧
      assemble source = .error (.statement 1 (.malformedOperands "\"\\\"\""))) ∧
    cut = String.ofList (" AREA d, DATA".toList ++ '\n' :: textLine ['a', '"', ';']) ∧
      assemble cut = .ok (Object.dataImage (utf8 ['a', '\\'])) :=
  ⟨⟨by decide, rfl⟩, by decide, rfl⟩

end Source

end Thumb

import Thumb.Proofs.OperandValue

namespace Thumb

namespace Text

theorem trim_enclosed {first last : Char} (hfirst : isBlank first = false)
    (hlast : isBlank last = false) (cs : List Char) :
    trim (first :: (cs ++ [last])) = first :: (cs ++ [last]) := by
  have hstart : trimStart (first :: (cs ++ [last])) = first :: (cs ++ [last]) :=
    List.dropWhile_cons_of_neg (by simp [hfirst])
  have hreverse : (first :: (cs ++ [last])).reverse = last :: (cs.reverse ++ [first]) := by simp
  rw [trim, hstart, trimEnd, hreverse, List.dropWhile_cons_of_neg (by simp [hlast]), ← hreverse,
    List.reverse_reverse]

theorem digit?_of_isDigit {c : Char} (h : c.isDigit = true) :
    digit? 10 c = some (c.toNat - '0'.toNat) := by
  obtain ⟨hmin, hmax⟩ : '0' ≤ c ∧ c ≤ '9' := by
    rw [Char.isDigit, Bool.and_eq_true, decide_eq_true_eq, decide_eq_true_eq] at h
    exact h
  have hlt : c.toNat - '0'.toNat < 10 := by
    have hle : c.toNat ≤ '9'.toNat := hmax
    have hnine : '9'.toNat = '0'.toNat + 9 := rfl
    omega
  rw [digit?, if_pos ⟨hmin, hmax⟩]
  exact if_pos (decide_eq_true hlt)

theorem foldlM_digit? {cs : List Char} (h : ∀ c ∈ cs, c.isDigit = true) (n : Nat) :
    cs.foldlM (fun n c => (digit? 10 c).map (n * 10 + ·)) n = some (Nat.ofDigitChars 10 cs n) := by
  induction cs generalizing n with
  | nil => rfl
  | cons c cs ih =>
    obtain ⟨hc, hcs⟩ := List.forall_mem_cons.mp h
    rw [List.foldlM_cons, digit?_of_isDigit hc, Nat.ofDigitChars_cons, Nat.mul_comm 10]
    exact ih hcs _

end Text

namespace Operand

theorem isDigit_toDigits (n : Nat) : ∀ c ∈ Nat.toDigits 10 n, c.isDigit = true :=
  fun _ => Nat.isDigit_of_mem_toDigits (by decide) (by decide)

theorem natural?_toDigits (n : Nat) : Text.natural? 10 (Nat.toDigits 10 n) = some n := by
  have hne : (Nat.toDigits 10 n).isEmpty = false := by
    simp [Nat.toDigits_ne_nil]
  rw [Text.natural?, hne, if_neg nofun, Text.foldlM_digit? (isDigit_toDigits n),
    Nat.ofDigitChars_toDigits (by decide) (by decide)]

theorem magnitude?_of_isDigit {cs : List Char} (h : ∀ c ∈ cs, c.isDigit = true) :
    magnitude? cs = (Text.natural? 10 cs).map fun n : Nat => (n : Int) := by
  have hno {c : Char} (hc : c.isDigit = false) : c ∉ cs := by
    intro hmem
    rw [h c hmem] at hc
    cases hc
  unfold magnitude?
  split
  · exact absurd (by simp) (hno (c := 'x') rfl)
  · exact absurd (by simp) (hno (c := 'X') rfl)
  · exact absurd (by simp) (hno (c := 'b') rfl)
  · exact absurd (by simp) (hno (c := 'B') rfl)
  · exact absurd (by simp) (hno (c := '\'') rfl)
  · cases Text.natural? 10 cs with
    | none => rfl
    | some n => rfl

theorem number?_toDigits {n : Nat} (hn : n < 2 ^ 63) :
    number? (String.ofList (Nat.toDigits 10 n)) = some (n : Int) := by
  have hdigit := isDigit_toDigits n
  have hfits : fits64 n = true := by
    simp only [fits64, Bool.and_eq_true, decide_eq_true_eq]
    omega
  rw [number?, String.toList_ofList,
    Text.trim_eq_self fun c hc => Text.isBlank_of_isDigit (hdigit c hc)]
  split
  case h_1 rest hcs => exact absurd (hdigit '-' (hcs ▸ .head _)) nofun
  case h_2 rest hcs => exact absurd (hdigit '+' (hcs ▸ .head _)) nofun
  case h_3 =>
    rw [magnitude?_of_isDigit hdigit, natural?_toDigits, Option.map_some, Option.filter_some,
      if_pos hfits]

def numberText (n : Nat) : String :=
  String.ofList ('#' :: Nat.toDigits 10 n)

theorem immediate_numberText {n : Nat} (hn : n < 2 ^ 63) :
    immediate (numberText n) = .ok (n : Int) := by
  rw [immediate_eq_ok]
  refine ⟨Nat.toDigits 10 n, ?_, number?_toDigits hn⟩
  rw [numberText, String.toList_ofList]
  apply Text.trim_eq_self
  intro c hc
  rcases List.mem_cons.mp hc with rfl | hc
  · rfl
  · exact Text.isBlank_of_isDigit (isDigit_toDigits n c hc)

theorem isImmediate_numberText (n : Nat) : isImmediate (numberText n) = true := by
  rw [isImmediate, numberText, String.toList_ofList]
  rfl

theorem scaledImmediate_numberText {bits scale u : Nat} (hbits : bits ≤ 16) (hscale : 0 < scale)
    (hsize : scale ≤ 4) (hu : u < 2 ^ bits) :
    scaledImmediate (numberText (scale * u)) bits scale = .ok u := by
  have hpow : 2 ^ bits ≤ 2 ^ 16 := Nat.pow_le_pow_right (by decide) hbits
  have hlt : scale * u < 2 ^ 63 := by
    calc scale * u ≤ 4 * u := Nat.mul_le_mul_right u hsize
      _ < 2 ^ 63 := by omega
  rw [scaledImmediate_eq_ok (by omega) hscale, immediate_numberText hlt, Nat.cast_mul]
  exact ⟨hu, rfl⟩

theorem unsignedImmediate_numberText {bits u : Nat} (hbits : bits ≤ 16) (hu : u < 2 ^ bits) :
    unsignedImmediate (numberText u) bits = .ok u := by
  have hone := scaledImmediate_numberText hbits Nat.one_pos (by decide) hu
  rwa [Nat.one_mul] at hone

theorem register_name (r : Reg) : register r.name = .ok r :=
  register_eq_ok.mpr r.parse?_name

theorem isRegister_name (r : Reg) : isRegister r.name = true := by
  rw [isRegister, r.parse?_name, Option.isSome_some]

theorem lowRegister_name (n : Fin 8) : lowRegister (Reg.low n).name = .ok n :=
  lowRegister_eq_ok.mpr (Reg.parse?_name _)

theorem isLowRegister_name (r : Reg) : isLowRegister r.name = r.isLow := by
  rw [isLowRegister, r.parse?_name, Option.any_some]

def memoryText (n : Reg) (offset : String) : String :=
  String.ofList ('[' :: ((n.name.toList ++ ',' :: offset.toList) ++ [']']))

theorem memoryText_reads (n : Reg) {offset : String} {x : Value} (h : value? offset = some x) :
    MemoryText (memoryText n offset) n x := by
  have htext : Text.trim (memoryText n offset).toList =
      '[' :: ((n.name.toList ++ ',' :: offset.toList) ++ [']']) := by
    rw [memoryText, String.toList_ofList]
    exact Text.trim_enclosed rfl rfl _
  rw [← @String.ofList_toList offset] at h
  exact .offset htext n.parse?_name h

theorem count_memoryText (n : Reg) {offset : String} (h : ',' ∉ offset.toList) :
    (memoryText n offset).toList.count ',' ≤ 1 := by
  have hname := Reg.not_mem_of_ofChars? n.parse?_name (c := ',') (by decide)
  rw [memoryText, String.toList_ofList]
  simp [List.count_append, List.count_eq_zero.mpr h, List.count_eq_zero.mpr hname]

theorem not_mem_numberText (n : Nat) : ',' ∉ (numberText n).toList := by
  rw [numberText, String.toList_ofList, List.mem_cons, not_or]
  refine ⟨by decide, ?_⟩
  intro hmem
  exact absurd (isDigit_toDigits n _ hmem) nofun

def listText (rs : List Reg) : String :=
  String.ofList ('\x7b' :: ([','].intercalate (rs.map (·.name.toList)) ++ ['\x7d']))

theorem trim_listText (rs : List Reg) : Text.trim (listText rs).toList =
    '\x7b' :: ([','].intercalate (rs.map (·.name.toList)) ++ ['\x7d']) := by
  rw [listText, String.toList_ofList]
  exact Text.trim_enclosed rfl rfl _

theorem isRegisterList_listText (rs : List Reg) : isRegisterList (listText rs) = true := by
  rw [isRegisterList, isEnclosed, trim_listText, ← List.cons_append, List.getLast?_concat]
  rfl

theorem listItem?_name (r : Reg) : listItem? (Text.trim r.name.toList) = some [r] := by
  obtain ⟨n⟩ := r
  revert n
  decide

theorem collectItems_names (op : String) {done rs : List Reg} (h : (done ++ rs).Nodup) :
    collectItems op done (rs.map (·.name.toList)) = .ok (done ++ rs) := by
  induction rs generalizing done with
  | nil => exact congrArg Except.ok (List.append_nil done).symm
  | cons r rs ih =>
    have hr : r ∉ done := by
      intro hmem
      exact (List.nodup_append.mp h).2.2 r hmem r (.head _) rfl
    rw [List.append_cons] at h ⊢
    rw [List.map_cons, collectItems, listItem?_name]
    simp only [appendNew, if_neg hr]
    exact ih h

theorem registerList_listText {rs : List Reg} (hne : rs ≠ []) (hnodup : rs.Nodup) :
    registerList (listText rs) = .ok rs := by
  have hcomma : ∀ cs ∈ rs.map (·.name.toList), ',' ∉ cs := by
    intro cs hcs
    obtain ⟨r, _, rfl⟩ := List.mem_map.mp hcs
    exact Reg.not_mem_of_ofChars? r.parse?_name (by decide)
  rw [registerList, trim_listText, between?_append]
  dsimp only
  rw [List.splitOn_intercalate _ hcomma (by simpa using hne)]
  exact collectItems_names _ hnodup

theorem eq_of_appendNew {op : String} {done rs out : List Reg}
    (h : appendNew op done rs = .ok out) : out = done ++ rs := by
  induction rs generalizing done with
  | nil =>
    cases h
    exact (List.append_nil _).symm
  | cons r rs ih =>
    unfold appendNew at h
    split at h
    case isTrue => cases h
    case isFalse => rw [ih h, List.append_assoc, List.singleton_append]

theorem collectItems_extends {op : String} {done out : List Reg} {items : List (List Char)}
    (h : collectItems op done items = .ok out) : done <+: out := by
  induction items generalizing done with
  | nil =>
    cases h
    exact List.prefix_rfl
  | cons item items ih =>
    unfold collectItems at h
    split at h
    case h_1 => cases h
    case h_2 rs _ =>
      obtain ⟨next, hnext, h⟩ := bind_ok_iff.mp h
      rw [eq_of_appendNew hnext] at h
      exact (List.prefix_append done rs).trans (ih h)

theorem listItem?_ne_nil {cs : List Char} {rs : List Reg} (h : listItem? cs = some rs) :
    rs ≠ [] := by
  unfold listItem? at h
  simp only [Option.bind_eq_bind, Option.bind_eq_some_iff] at h
  obtain ⟨first, _, last, _, h⟩ := h
  split at h
  case isTrue hle =>
    cases h
    apply List.ne_nil_of_mem (a := first)
    rw [registerRange, List.mem_filter]
    refine ⟨List.mem_map.mpr ⟨first.number, List.mem_finRange _, rfl⟩, ?_⟩
    simpa using hle
  case isFalse => cases h

theorem registerList_ne_nil {op : String} {rs : List Reg} (h : registerList op = .ok rs) :
    rs ≠ [] := by
  unfold registerList at h
  split at h
  case h_1 => cases h
  case h_2 inner _ =>
    obtain ⟨item, items, hitems⟩ := List.exists_cons_of_ne_nil (List.splitOn_ne_nil ',' inner)
    rw [hitems, collectItems] at h
    split at h
    case h_1 => cases h
    case h_2 first hfirst =>
      obtain ⟨next, hnext, h⟩ := bind_ok_iff.mp h
      rw [eq_of_appendNew hnext, List.nil_append] at h
      rintro rfl
      exact listItem?_ne_nil hfirst (List.prefix_nil.mp (collectItems_extends h))

end Operand

end Thumb

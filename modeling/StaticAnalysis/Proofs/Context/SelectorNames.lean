import StaticAnalysis.Context.Selector
import StaticAnalysis.Proofs.Text.Reading

/-!
# Names of selectors

`Selector.parse` reads the name of a selector and `Selector.name` writes it. A name is cut at its
last dash; in front of it stands the depth, behind it the kind. A depth that looks like a number may
still not be readable as one.

* `Selector.Proper` — the selectors that names stand for: their depths are positive.
* `splitLast_of_parts`, `exists_last` — the last dash.
* `Unreadable` — a known kind behind digits that write no number, or too many of them.
* `reads_parse` — **what comes of a name**, case by case; `parse_of_unreadable` is the case that is
  no report about the name.
* `parse_written` — a name that is put together from a number and a kind.

**Main statements**: `names_round_trip` — names are read back, up to the number of digits that is
read at all; `parse_reports_iff_readable` — a name is accepted or refused as unknown, unless its
depth is unreadable.
-/

namespace StaticAnalysis.Selector

/-- The kinds of selectors that have a depth, by their names. -/
def kindNames : List (String × (Int → Selector)) :=
  [("call", callString), ("obj", objectChain), ("type", typeChain)]

/-- What a name can stand for: the insensitive selector, or one of positive depth that decides
contexts. -/
def Proper : Selector → Prop
  | insensitive => True
  | callString k | objectChain k | typeChain k => 1 ≤ k
  | undecided _ => False

/-- A name as it is looked at: in small letters, without the blanks around it. -/
def normalized (written : String) : List Char := Text.lower (Text.trim written.toList)

section Kinds

variable {kind : String × (Int → Selector)} (mem : kind ∈ kindNames)

include mem

theorem kind_cases :
    kind = ("call", callString) ∨ kind = ("obj", objectChain) ∨ kind = ("type", typeChain) := by
  simpa [kindNames] using mem

theorem ofKind?_of_mem : ofKind? (String.ofList kind.1.toList) = some kind.2 := by
  rw [String.ofList_toList]
  rcases kind_cases mem with rfl | rfl | rfl <;> rfl

theorem proper_of_mem {k : Int} (positive : 1 ≤ k) : (kind.2 k).Proper := by
  rcases kind_cases mem with rfl | rfl | rfl <;> exact positive

theorem name_of_mem {k : Nat} (short : (toString k).length ≤ Fault.depthLimit) :
    (kind.2 k).name = .ok (toString k ++ "-" ++ kind.1) := by
  have written : writeDepth k = .ok (toString k) := if_neg (Nat.not_lt.mpr short)
  rcases kind_cases mem with rfl | rfl | rfl <;>
    simp only [name, written, Except.map, String.append_assoc] <;> rfl

theorem isPlain_of_mem : ∀ c ∈ kind.1.toList, Text.isPlain c = true := by
  rw [← List.all_eq_true]
  rcases kind_cases mem with rfl | rfl | rfl <;> rfl

theorem dash_not_mem : '-' ∉ kind.1.toList := by
  rcases kind_cases mem with rfl | rfl | rfl <;> decide

end Kinds

theorem mem_of_ofKind? {kind : String} {make : Int → Selector} (h : ofKind? kind = some make) :
    (kind, make) ∈ kindNames := by
  unfold ofKind? at h
  split at h
  · cases h
    simp [kindNames]
  · cases h
    simp [kindNames]
  · cases h
    simp [kindNames]
  · contradiction

/-! ### The last dash -/

section Split

variable {c : Char} {before after cs : List Char}

theorem splitLast_of_parts (parts : cs = before ++ c :: after) (h : c ∉ after) :
    splitLast c cs = some (before, after) := by
  have other : ∀ d ∈ after.reverse, (d != c) = true := by
    intro d hd
    rw [bne_iff_ne]
    intro same
    exact h (same ▸ List.mem_reverse.mp hd)
  have back : cs.reverse = after.reverse ++ c :: before.reverse := by
    rw [parts]
    simp
  rw [splitLast, back, List.dropWhile_append_of_pos other, List.takeWhile_append_of_pos other]
  simp

theorem splitLast_of_not_mem (h : c ∉ cs) : splitLast c cs = none := by
  have other : cs.reverse.dropWhile (· != c) = [] := by
    rw [List.dropWhile_eq_nil_iff]
    intro d hd
    rw [bne_iff_ne]
    intro same
    exact h (same ▸ List.mem_reverse.mp hd)
  rw [splitLast, other]

theorem exists_last (h : c ∈ cs) : ∃ before after, cs = before ++ c :: after ∧ c ∉ after := by
  obtain ⟨after, before, split, first⟩ := List.eq_append_cons_of_mem (List.mem_reverse.mpr h)
  refine ⟨before.reverse, after.reverse, ?_, fun hc => first (List.mem_reverse.mp hc)⟩
  calc cs = cs.reverse.reverse := (List.reverse_reverse cs).symm
    _ = before.reverse ++ c :: after.reverse := by
      rw [split]
      simp

end Split

/-! ### Depths and kinds -/

/-- A known kind behind a depth of digits that cannot be read: there are too many of them, or one
has no decimal value. -/
def Unreadable (name depth : List Char) : Prop :=
  (∃ kind ∈ kindNames, name = depth ++ '-' :: kind.1.toList) ∧ Text.isDigits depth = true ∧
    (Fault.depthLimit < Text.decimalRun depth ∨ ∃ c ∈ depth, Text.decimal? c = none)

/-- The fault of a depth that cannot be read. -/
def depthFault (depth : List Char) : Fault :=
  if Fault.depthLimit < Text.decimalRun depth then .depthTooLong (Text.decimalRun depth)
  else .depthNotDecimal (String.ofList depth)

section Depths

variable {name depth kind : List Char}

theorem ofParts_of_unknown (h : ofKind? (String.ofList kind) = none) :
    ofParts name depth kind = .error (.unknownSelector (String.ofList name)) := by
  rw [ofParts, h]
  rfl

theorem ofParts_of_kind {make : Int → Selector} (h : ofKind? (String.ofList kind) = some make) :
    ofParts name depth kind =
      if Text.isDigits depth then
        match readDepth depth with
        | .error f => .error f
        | .ok 0 => .error (.unknownSelector (String.ofList name))
        | .ok k => .ok (make k)
      else .error (.unknownSelector (String.ofList name)) := by
  rw [ofParts, h]
  show (if Text.isDigits depth = true then _ else _) = _
  cases readDepth depth with
  | error f => rfl
  | ok k => cases k <;> rfl

theorem readDepth_eq (depth : List Char) :
    readDepth depth =
      if Fault.depthLimit < Text.decimalRun depth then .error (depthFault depth)
      else match Text.readDecimal? depth with
        | some k => .ok k
        | none => .error (depthFault depth) := by
  show (if Fault.depthLimit < Text.decimalRun depth then _
    else orFault (Text.readDecimal? depth) _) = _
  unfold depthFault
  split
  · rfl
  · cases Text.readDecimal? depth <;> rfl

/-- What is read of a depth is a number of so many digits, or the depth is unreadable. -/
theorem readDepth_cases (digits : Text.isDigits depth = true) :
    (∃ k, readDepth depth = .ok k ∧ k < 10 ^ Fault.depthLimit) ∨
      ((Fault.depthLimit < Text.decimalRun depth ∨ ∃ c ∈ depth, Text.decimal? c = none) ∧
        readDepth depth = .error (depthFault depth)) := by
  rw [readDepth_eq]
  split
  · next long => exact Or.inr ⟨Or.inl long, rfl⟩
  · next short =>
    cases read : Text.readDecimal? depth with
    | none => exact Or.inr ⟨Or.inr ((Text.readDecimal?_eq_none_iff digits).mp read), rfl⟩
    | some k =>
      refine Or.inl ⟨k, rfl, Nat.lt_of_lt_of_le (Text.readDecimal?_lt read) ?_⟩
      exact Nat.pow_le_pow_right (by decide) (Nat.le_of_not_lt short)

theorem readDepth_of_unreadable (h : Unreadable name depth) :
    readDepth depth = .error (depthFault depth) := by
  obtain ⟨-, digits, long | other⟩ := h
  · rw [readDepth_eq, if_pos long]
  · rw [readDepth_eq, (Text.readDecimal?_eq_none_iff digits).mpr other]
    split <;> rfl

end Depths

/-! ### Whole names -/

section Names

variable {written : String} {depth kind : List Char}

/-- A name that begins with a digit is none of the names of the insensitive selector. -/
theorem not_mem_insensitiveNames {name : List Char} {c : Char} {cs : List Char} (h : name = c :: cs)
    (digit : Text.isDigit c = true) : String.ofList name ∉ insensitiveNames := by
  have heads :
      insensitiveNames.all (fun text => text.toList.head?.all fun d => !Text.isDigit d) = true := by
    decide +kernel
  intro mem
  have head := List.all_eq_true.mp heads _ mem
  rw [String.toList_ofList, h, List.head?_cons, Option.all_some, digit] at head
  cases head

section Cases

variable (other : String.ofList (normalized written) ∉ insensitiveNames)

include other

theorem parse_of_split (split : splitLast '-' (normalized written) = some (depth, kind)) :
    parse written = ofParts (normalized written) depth kind := by
  rw [normalized] at other split ⊢
  rw [parse, if_neg other, split]

theorem parse_of_kind {make : Int → Selector} (whole : splitLast '-' (normalized written) = none)
    (known : ofKind? (String.ofList (normalized written)) = some make) :
    parse written = .ok (make defaultDepth) := by
  rw [normalized] at other whole known
  rw [parse, if_neg other, whole, known]

theorem parse_of_unknown (whole : splitLast '-' (normalized written) = none)
    (unknown : ofKind? (String.ofList (normalized written)) = none) :
    parse written = .error (.unknownSelector (String.ofList (normalized written))) := by
  rw [normalized] at other whole unknown ⊢
  rw [parse, if_neg other, whole, unknown]

end Cases

/-- A known kind behind digits: what comes of the name is up to the digits. -/
theorem parse_of_digits {kind : String × (Int → Selector)} (mem : kind ∈ kindNames)
    (parts : normalized written = depth ++ '-' :: kind.1.toList)
    (digits : Text.isDigits depth = true) :
    parse written =
      match readDepth depth with
      | .error f => .error f
      | .ok 0 => .error (.unknownSelector (String.ofList (normalized written)))
      | .ok k => .ok (kind.2 k) := by
  have begins : ∃ c cs, depth = c :: cs ∧ Text.isDigit c = true := by
    cases depth with
    | nil => contradiction
    | cons c cs =>
      rw [Text.isDigits, Bool.and_eq_true, List.all_cons, Bool.and_eq_true] at digits
      exact ⟨c, cs, rfl, digits.2.1⟩
  have other : String.ofList (normalized written) ∉ insensitiveNames := by
    obtain ⟨c, cs, rfl, digit⟩ := begins
    exact not_mem_insensitiveNames parts digit
  rw [parse_of_split other (splitLast_of_parts parts (dash_not_mem mem)),
    ofParts_of_kind (ofKind?_of_mem mem), if_pos digits]

/-- A depth that cannot be read is a fault of its own. -/
theorem parse_of_unreadable (h : Unreadable (normalized written) depth) :
    parse written = .error (depthFault depth) := by
  have fault := readDepth_of_unreadable h
  obtain ⟨⟨kind, mem, parts⟩, digits, -⟩ := h
  rw [parse_of_digits mem parts digits, fault]

/-- What can come of a name. -/
inductive Reads (name : List Char) : Except Fault Selector → Prop where
  | insensitive : Reads name (.ok .insensitive)
  | kind {kind : String × (Int → Selector)} {k : Nat} (mem : kind ∈ kindNames) (positive : 1 ≤ k)
      (bound : k < 10 ^ Fault.depthLimit) : Reads name (.ok (kind.2 k))
  | unknown : Reads name (.error (.unknownSelector (String.ofList name)))
  | unreadable {depth : List Char} (h : Unreadable name depth) :
      Reads name (.error (depthFault depth))

theorem reads_ofParts {name : List Char} (parts : name = depth ++ '-' :: kind) :
    Reads name (ofParts name depth kind) := by
  cases make : ofKind? (String.ofList kind) with
  | none =>
    rw [ofParts_of_unknown make]
    exact .unknown
  | some make' =>
    rw [ofParts_of_kind make]
    split
    · next digits =>
      have mem := mem_of_ofKind? make
      rcases readDepth_cases digits with ⟨k, read, bound⟩ | ⟨other, fault⟩
      · rw [read]
        cases k with
        | zero => exact .unknown
        | succ k => exact .kind mem (Nat.succ_pos k) bound
      · rw [fault]
        refine .unreadable ⟨⟨_, mem, ?_⟩, digits, other⟩
        rw [String.toList_ofList]
        exact parts
    · exact .unknown

/-- **What comes of a name.** -/
theorem reads_parse (written : String) : Reads (normalized written) (parse written) := by
  by_cases known : String.ofList (normalized written) ∈ insensitiveNames
  · have accepted : parse written = .ok insensitive := by
      rw [normalized] at known
      rw [parse, if_pos known]
    rw [accepted]
    exact .insensitive
  · by_cases dash : '-' ∈ normalized written
    · obtain ⟨before, after, parts, last⟩ := exists_last dash
      rw [parse_of_split known (splitLast_of_parts parts last)]
      exact reads_ofParts parts
    · have whole := splitLast_of_not_mem dash
      cases make : ofKind? (String.ofList (normalized written)) with
      | none =>
        rw [parse_of_unknown known whole make]
        exact .unknown
      | some make' =>
        rw [parse_of_kind known whole make]
        refine .kind (k := defaultDepth) (mem_of_ofKind? make) (by decide) ?_
        calc defaultDepth < 10 ^ 1 := by decide
          _ ≤ 10 ^ Fault.depthLimit := Nat.pow_le_pow_right (by decide) (by decide)

end Names

/-! ### Numbers and kinds -/

theorem toList_written (k : Nat) (kind : String) :
    (toString k ++ "-" ++ kind).toList = Nat.toDigits 10 k ++ '-' :: kind.toList := by
  rw [String.toList_append, String.toList_append, Nat.toString_eq_repr, Nat.toList_repr,
    List.append_assoc]
  rfl

theorem length_toString (k : Nat) : (toString k).length = (Nat.toDigits 10 k).length := by
  rw [Nat.toString_eq_repr, ← String.length_toList, Nat.toList_repr]

theorem length_toString_le_iff {k n : Nat} (h : 0 < n) : (toString k).length ≤ n ↔ k < 10 ^ n := by
  rw [length_toString]
  exact Nat.length_toDigits_le_iff (by decide) h

/-- **A name that is put together from a number and a kind**, with blanks around it and in any
letters. -/
theorem parse_written {kind : String × (Int → Selector)} (mem : kind ∈ kindNames) {k : Nat}
    (positive : 1 ≤ k) {before written after : List Char}
    (hbefore : ∀ c ∈ before, Text.isBlank c = true) (hafter : ∀ c ∈ after, Text.isBlank c = true)
    (same : Text.SameLetters written (toString k ++ "-" ++ kind.1).toList) :
    parse (String.ofList (before ++ written ++ after)) =
      if (toString k).length ≤ Fault.depthLimit then .ok (kind.2 k)
      else .error (.depthTooLong (toString k).length) := by
  rw [toList_written] at same
  rw [length_toString]
  have plain : ∀ c ∈ Nat.toDigits 10 k ++ '-' :: kind.1.toList, Text.isPlain c = true := by
    intro c hc
    rcases List.mem_append.mp hc with digit | rest
    · simp [Text.isPlain, Text.isDigit_of_mem_toDigits c digit]
    · rcases List.mem_cons.mp rest with rfl | letter
      · rfl
      · exact isPlain_of_mem mem c letter
  have parts : normalized (String.ofList (before ++ written ++ after))
      = Nat.toDigits 10 k ++ '-' :: kind.1.toList := by
    rw [normalized, String.toList_ofList,
      Text.trim_append hbefore hafter (same.ne_nil (by simp)) (same.isBlank plain),
      Text.lower_of_sameLetters same plain]
  rw [parse_of_digits mem parts (Text.isDigits_toDigits k), readDepth_eq, depthFault,
    Text.decimalRun_toDigits, Text.readDecimal?_toDigits]
  by_cases short : (Nat.toDigits 10 k).length ≤ Fault.depthLimit
  · rw [if_neg (Nat.not_lt.mpr short), if_pos short]
    obtain ⟨j, rfl⟩ : ∃ j, k = j + 1 := ⟨k - 1, by omega⟩
    rfl
  · have long := Nat.lt_of_not_le short
    rw [if_pos long, if_pos long, if_neg short]

/-! ### Reading back -/

/-- The plain form of a name, without blanks and in small letters. -/
theorem parse_plain {kind : String × (Int → Selector)} (mem : kind ∈ kindNames) {k : Nat}
    (positive : 1 ≤ k) :
    parse (toString k ++ "-" ++ kind.1) =
      if (toString k).length ≤ Fault.depthLimit then .ok (kind.2 k)
      else .error (.depthTooLong (toString k).length) := by
  have none : ∀ c ∈ ([] : List Char), Text.isBlank c = true := by simp
  have read := parse_written mem positive none none (Text.SameLetters.refl _)
  rw [List.nil_append, List.append_nil, String.ofList_toList] at read
  exact read

/-- **Names are read back.** For every text:

* if it is read as a selector, then the name of this selector is read as the same selector;
* if it is a positive number in decimal, a dash and a kind, with blanks around them and in any
  letters, then it is read as the selector of that kind and depth — but only if the number has at
  most `Fault.depthLimit` digits. -/
theorem names_round_trip (written : String) :
    (∀ sel, parse written = .ok sel → ∃ text, sel.name = .ok text ∧ parse text = .ok sel) ∧
    ∀ kind ∈ kindNames, ∀ k : Nat, 1 ≤ k → ∀ before name after : List Char,
      (∀ c ∈ before, Text.isBlank c = true) → (∀ c ∈ after, Text.isBlank c = true) →
      Text.SameLetters name (toString k ++ "-" ++ kind.1).toList →
      written = String.ofList (before ++ name ++ after) →
        parse written =
          if (toString k).length ≤ Fault.depthLimit then .ok (kind.2 k)
          else .error (.depthTooLong (toString k).length) := by
  refine ⟨?_, ?_⟩
  · intro sel h
    have reads := reads_parse written
    rw [h] at reads
    cases reads with
    | insensitive => exact ⟨"ci", rfl, by decide +kernel⟩
    | kind mem positive bound =>
      have short := (length_toString_le_iff (by decide)).mpr bound
      refine ⟨_, name_of_mem mem short, ?_⟩
      rw [parse_plain mem positive, if_pos short]
  · intro kind mem k positive before name after hbefore hafter same form
    rw [form]
    exact parse_written mem positive hbefore hafter same

/-- Arabic digits and a zero in front: the name that is written back is another, the selector is the
same. -/
theorem names_round_trip_type :
    (∃ text, parse "\t0٣-Type " = .ok (.typeChain 3) ∧ (typeChain 3).name = .ok text ∧
      text = "3-type" ∧
      parse text = .ok (.typeChain 3)) ∧
    parse "\t12-oBJ\n " = .ok (.objectChain 12) := by
  have accepted : parse "\t0٣-Type " = .ok (.typeChain 3) := by decide +kernel
  obtain ⟨text, name, back⟩ := (names_round_trip "\t0٣-Type ").1 _ accepted
  have shown : (typeChain 3).name = .ok "3-type" := by decide +kernel
  refine ⟨⟨text, accepted, name, ?_, back⟩, ?_⟩
  · exact Except.ok.inj (name.symm.trans shown)
  · exact (names_round_trip "\t12-oBJ\n ").2 ("obj", objectChain)
      (by simp [kindNames]) 12 (by decide)
      ['\t'] "12-oBJ".toList ['\n', ' '] (List.all_eq_true.mp rfl) (List.all_eq_true.mp rfl)
      (by unfold Text.SameLetters; decide) rfl

/-- The least number of one digit more. -/
theorem length_toString_pow {n : Nat} (h : 0 < n) : (toString (10 ^ n)).length = n + 1 := by
  have most : (toString (10 ^ n)).length ≤ n + 1 :=
    (length_toString_le_iff (Nat.succ_pos n)).mpr
      (Nat.pow_lt_pow_right (by decide) (Nat.lt_succ_self n))
  have least : ¬ (toString (10 ^ n)).length ≤ n :=
    fun few => Nat.lt_irrefl _ ((length_toString_le_iff h).mp few)
  omega

/-- A positive depth of one digit more than the limit is refused. -/
theorem parse_depth_over_limit :
    parse (toString (10 ^ Fault.depthLimit) ++ "-" ++ "call") =
      .error (.depthTooLong (Fault.depthLimit + 1)) := by
  have read := parse_plain (show ("call", callString) ∈ kindNames by simp [kindNames])
    (Nat.one_le_pow Fault.depthLimit 10 (by decide))
  rw [length_toString_pow (by decide), if_neg (by omega)] at read
  exact read

/-- **A name is accepted or refused as unknown, unless its depth is unreadable.** Read is the
insensitive selector or one of positive depth. A depth that is unreadable is a fault of its own,
which says nothing about the name. -/
theorem parse_reports_iff_readable (written : String) :
    ((∃ sel, parse written = .ok sel ∧ sel.Proper) ∨
        parse written = .error (.unknownSelector (String.ofList (normalized written))) ↔
      ∀ depth, ¬ Unreadable (normalized written) depth) ∧
    ∀ depth, Unreadable (normalized written) depth →
      parse written =
        .error (if Fault.depthLimit < Text.decimalRun depth
          then .depthTooLong (Text.decimalRun depth)
          else .depthNotDecimal (String.ofList depth)) := by
  refine ⟨⟨?_, ?_⟩, fun depth => parse_of_unreadable⟩
  · intro reported depth unreadable
    rw [parse_of_unreadable unreadable] at reported
    obtain ⟨sel, accepted, -⟩ | unknown := reported
    · cases accepted
    · have fault := Except.error.inj unknown
      unfold depthFault at fault
      split at fault <;> contradiction
  · intro readable
    generalize outcome : parse written = result
    have reads : Reads (normalized written) result := outcome ▸ reads_parse written
    cases reads with
    | insensitive => exact Or.inl ⟨_, rfl, trivial⟩
    | kind mem positive bound =>
      exact Or.inl ⟨_, rfl, proper_of_mem mem (Int.ofNat_le.mpr positive)⟩
    | unknown => exact Or.inr rfl
    | @unreadable depth h => exact absurd h (readable depth)

theorem parse_reports_iff_readable_superscript :
    Unreadable (normalized " 1²-Obj") "1²".toList ∧
    parse " 1²-Obj" = .error (.depthNotDecimal "1²") := by
  have unreadable : Unreadable (normalized " 1²-Obj") "1²".toList :=
    ⟨⟨("obj", objectChain), by simp [kindNames], by decide +kernel⟩, by decide +kernel,
      Or.inr ⟨'²', by decide, by decide +kernel⟩⟩
  have fault := (parse_reports_iff_readable " 1²-Obj").2 _ unreadable
  rw [if_neg (by decide +kernel)] at fault
  exact ⟨unreadable, fault⟩

/-- A superscript is a digit without decimal value. -/
theorem parse_superscript :
    parse "²-call" = .error (.depthNotDecimal "²") ∧ ¬ ∃ sel, parse "²-call" = .ok sel := by
  have fault : parse "²-call" = .error (.depthNotDecimal "²") := by decide +kernel
  refine ⟨fault, ?_⟩
  intro accepted
  obtain ⟨sel, accepted⟩ := accepted
  rw [fault] at accepted
  contradiction

end StaticAnalysis.Selector

import TaskMachine.Host
import TaskMachine.Number
import TaskMachine.Proofs.Decimal.Shortest
import TaskMachine.Proofs.Decimal.Texts

/-!
Printed numbers are read back. The plain text of an integer is read as the integer, and that of a finite
float as a number of the same value, which is an integer if the text has no point and the number fits. A
float that is not finite has a text that is no number.
-/

namespace TaskMachine

-----------------------------------------------------------------------------------------
-- Blanks
-----------------------------------------------------------------------------------------

private theorem dropWhile_not_blank {text : List Char} (plain : ∀ c ∈ text, isBlank c = false)
    : text.dropWhile isBlank = text := by
  cases text with
  | nil => rfl
  | cons c text => exact List.dropWhile_cons_of_neg (by simp [plain c List.mem_cons_self])

/-- Blanks around a text are taken off, and nothing else is. -/
theorem trim_padded {before text after : List Char} (blankBefore : ∀ c ∈ before, isBlank c = true)
    (plain : ∀ c ∈ text, isBlank c = false) (blankAfter : ∀ c ∈ after, isBlank c = true)
    : trim (before ++ text ++ after) = text := by
  have back : (text ++ after).reverse.dropWhile isBlank = text.reverse := by
    rw [List.reverse_append, List.dropWhile_append_of_pos (by simpa using blankAfter)]
    exact dropWhile_not_blank (by simpa using plain)
  rw [trim, List.append_assoc, List.dropWhile_append_of_pos blankBefore]
  cases text with
  | nil =>
      have nothing : after.dropWhile isBlank = [] := List.dropWhile_eq_nil_iff.mpr blankAfter
      rw [List.nil_append, nothing]
      rfl
  | cons c text =>
      rw [List.cons_append, List.dropWhile_cons_of_neg (by simp [plain c List.mem_cons_self]),
        ← List.cons_append, back, List.reverse_reverse]

namespace NumberText

variable {text : List Char} {d : Decimal} {n : Int}

private theorem isBlank_of_digit {c : Char} (digit : c.isDigit = true) : isBlank c = false := by
  have range := digit_range digit
  simp only [isBlank]
  simp
  omega

private theorem Numeral.not_blank (numeral : Numeral text d) : ∀ c ∈ text, isBlank c = false := by
  intro c member
  rcases numeral.mem member with digit | rfl
  · exact isBlank_of_digit digit
  · rfl

-----------------------------------------------------------------------------------------
-- Integers
-----------------------------------------------------------------------------------------

/-- An integer of 32 bits is read back from its decimal digits. -/
theorem int32?_toString (n : Int32) : int32? (toString n.toInt).toList = some n := by
  simp only [int32?, integer?_toString, Option.bind_eq_bind, Option.bind_some]
  rw [if_pos ⟨n.minValue_le_toInt, n.toInt_le⟩, Int32.ofInt_toInt]

private theorem int32?_of_integer? (read : integer? text = some n)
    : int32? text = if -2147483648 ≤ n ∧ n ≤ 2147483647 then some (Int32.ofInt n) else none := by
  simp only [int32?, read]
  rfl

private theorem not_blank_toString (n : Int) : ∀ c ∈ (toString n).toList, isBlank c = false := by
  have plain (k : Nat) : ∀ c ∈ Nat.toDigits 10 k, isBlank c = false := fun c member =>
    isBlank_of_digit (isDigit_of_toDigits k c member)
  rw [toList_toString]
  split_ifs
  · exact plain _
  · exact List.forall_mem_cons.mpr ⟨rfl, plain _⟩

end NumberText

namespace Host

open NumberText

/-- A value stands for a number. -/
inductive StandsFor : Value → ℚ → Prop
  | integer (n : Int32) : StandsFor (.integer n) n.toInt
  | float {x : Float} (finite : x.isFinite = true) : StandsFor (.float x) (Float.value x)

variable {x : Float}

/-- A value that stands for the number of a float equals the float. -/
theorem StandsFor.equals {v : Value} (stands : StandsFor v (Float.value x)) (finite : x.isFinite = true)
    : v.equals (.float x) = true := by
  generalize number : Float.value x = q at stands
  cases stands with
  | integer n =>
      have lower := n.le_toInt
      have upper := n.toInt_lt
      obtain ⟨finite', same⟩ := Float.nearestFloat_exact (n := n.toInt) (by omega)
      refine Float.beq_iff_place.mpr ⟨Float.isNaN_of_finite finite', Float.isNaN_of_finite finite, ?_⟩
      rw [Float.place_of_finite finite', Float.place_of_finite finite, same, number]
  | float finite' =>
      refine Float.beq_iff_place.mpr ⟨Float.isNaN_of_finite finite', Float.isNaN_of_finite finite, ?_⟩
      rw [Float.place_of_finite finite', Float.place_of_finite finite, number]

-----------------------------------------------------------------------------------------
-- Floats
-----------------------------------------------------------------------------------------

/-- The text of a finite float is a numeral, with a sign in front of it for negative ones. -/
theorem script_finite (finite : x.isFinite = true)
    : (FloatText.script x).toList
      = if FloatText.isNegative x then '-' :: (Decimal.ofFloat x).positional
        else (Decimal.ofFloat x).positional := by
  have number := Float.isNaN_of_finite finite
  have inside := Float.isInf_of_finite finite
  simp only [FloatText.script, FloatText.render, number, inside, Bool.false_eq_true, if_false]
  split_ifs
  · simp
  · simp

/-- The text of a float that is not finite is one of three words. -/
theorem script_of_not_finite (outside : x.isFinite = false)
    : FloatText.script x = "NaN" ∨ FloatText.script x = "Inf" ∨ FloatText.script x = "-Inf" := by
  rw [FloatText.script, FloatText.render]
  cases nan : x.isNaN with
  | true => exact .inl rfl
  | false =>
      have infinite : x.isInf = true := by
        rcases Float.infinite_or_finite nan with ⟨infinite, -⟩ | finite
        · exact infinite
        · exact absurd finite (by simp [outside])
      rw [infinite]
      cases FloatText.isNegative x with
      | true => exact .inr (.inr rfl)
      | false => exact .inr (.inl rfl)

/-- The text of a float has no white space. -/
theorem not_blank_script (x : Float) : ∀ c ∈ (FloatText.script x).toList, isBlank c = false := by
  cases finite : x.isFinite with
  | true =>
      obtain ⟨d, numeral, -⟩ := Decimal.numeral_positional (Decimal.ofFloat x)
      have plain := numeral.not_blank
      rw [script_finite finite]
      split_ifs
      · exact List.forall_mem_cons.mpr ⟨rfl, plain⟩
      · exact plain
  | false => rcases script_of_not_finite finite with text | text | text <;> rw [text] <;> simp [isBlank]

/-- Words are no numbers. -/
theorem readNumber?_of_not_finite (outside : x.isFinite = false)
    : readNumber? (FloatText.script x).toList = none := by
  rw [← Option.isNone_iff_eq_none]
  rcases script_of_not_finite outside with text | text | text <;> rw [text] <;> decide +kernel

/-- A text that is read as a float is read as that float, or as an integer that it stands for. -/
theorem readNumber?_float {text : List Char} (finite : x.isFinite = true) (float : float? text = some x)
    (whole : ∀ n, integer? text = some n → n.natAbs ≤ 2 ^ 53 → Float.value x = n)
    : ∃ v, readNumber? text = some v ∧ StandsFor v (Float.value x) := by
  have asFloat (other : int32? text = none)
      : ∃ v, readNumber? text = some v ∧ StandsFor v (Float.value x) := by
    refine ⟨.float x, ?_, .float finite⟩
    rw [readNumber?, other, float]
    simp only [finite, if_true]
  cases integer : integer? text with
  | none =>
      refine asFloat ?_
      rw [int32?, integer]
      rfl
  | some n =>
      have fits := int32?_of_integer? integer
      split_ifs at fits with small
      · have same : (Int32.ofInt n).toInt = n := Int32.toInt_ofInt_of_le (by omega) (by omega)
        have stands := StandsFor.integer (Int32.ofInt n)
        rw [same] at stands
        refine ⟨.integer (Int32.ofInt n), ?_, ?_⟩
        · rw [readNumber?, fits]
        · rw [whole n integer (by omega)]
          exact stands
      · exact asFloat fits

/-- The text of a finite float is read as a number of its value. -/
theorem readNumber?_script (finite : x.isFinite = true)
    : ∃ v, readNumber? (FloatText.script x).toList = some v ∧ StandsFor v (Float.value x) := by
  obtain ⟨d, numeral, same⟩ := Decimal.numeral_positional (Decimal.ofFloat x)
  have back : d.toFloat = x.abs :=
    (Decimal.toFloat_congr same).trans (Decimal.toFloat_ofFloat finite)
  have signed := Float.signed_abs finite
  have number := Float.value_eq_signed_magnitude x
  obtain ⟨float, float'⟩ := float?_numeral numeral
  rw [back] at float float'
  rw [script_finite finite]
  generalize (Decimal.ofFloat x).positional = text at numeral float float' ⊢
  -- only a numeral without a point is an integer
  split_ifs at signed number ⊢
  · rw [signed] at float'
    refine readNumber?_float finite float' fun n integer short => ?_
    cases numeral with
    | point some digits =>
        rw [(integer?_point some digits).2] at integer
        cases integer
    | whole some digits =>
        rw [(integer?_whole some digits).2] at integer
        cases integer
        rw [number, Decimal.magnitude_of_whole finite back (by omega)]
        simp
  · rw [signed] at float
    refine readNumber?_float finite float fun n integer short => ?_
    cases numeral with
    | point some digits =>
        rw [(integer?_point some digits).1] at integer
        cases integer
    | whole some digits =>
        rw [(integer?_whole some digits).1] at integer
        cases integer
        rw [number, Decimal.magnitude_of_whole finite back (by omega)]
        simp

-----------------------------------------------------------------------------------------
-- Printing and reading
-----------------------------------------------------------------------------------------

/-- What the function of a name answers. -/
def call (name : String) (args : List Argument) : Option HostReply :=
  (functions.find? (·.name == name)).map (·.run args)

/-- A text with other characters around it. -/
def padded (before : List Char) (text : String) (after : List Char) : String :=
  String.ofList (before ++ text.toList ++ after)

/-- What becomes of a value that is printed: `STR` gives its plain text, `PRINT` shows it as a line. With
the characters around it, the text is read as `typed` where it is typed in and as `given` by `VAL`.
-/
structure PrintedAndRead (h : Heap) (before after : List Char) (v typed given : Value) : Prop where
  text : call "STR" [h.argument v] = some { outcome := .ok (.string (h.plain v)) }
  line : call "PRINT" [h.argument v] = some { outcome := .ok .null, events := [.line (h.plain v)] }
  typed : readInput (padded before (h.plain v) after) = typed
  given : call "VAL" [h.argument (.string (padded before (h.plain v) after))]
    = some { outcome := .ok given }

variable {h : Heap} {before after : List Char}

/-- No number is read from nothing. -/
theorem ne_nil_of_read {text : List Char} {v : Value} (read : readNumber? text = some v)
    : text ≠ [] := by
  rintro rfl
  cases read

/-- Reading depends on nothing but whether the text is that of a number. -/
theorem printedAndRead {v : Value} {text : String} (shown : h.plain v = text) (some : v.isNull = false)
    (blankBefore : ∀ c ∈ before, isBlank c = true) (blankAfter : ∀ c ∈ after, isBlank c = true)
    (length : text.toList ≠ []) (plain : ∀ c ∈ text.toList, isBlank c = false)
    : PrintedAndRead h before after v
        ((readNumber? text.toList).getD (.string text))
        ((readNumber? text.toList).getD .null) := by
  have trimmed : trim (padded before text after).toList = text.toList := by
    rw [padded, String.toList_ofList, trim_padded blankBefore plain blankAfter]
  have present : text.toList.isEmpty = false := by simpa using length
  subst shown
  refine ⟨?_, ?_, ?_, ?_⟩
  · change Option.some (Host.present Host.text [h.argument v]) = _
    simp [Host.present, Heap.argument, some, Host.text]
  · change Option.some (Host.print [h.argument v]) = _
    simp [Host.print, Heap.argument]
  · rw [readInput]
    simp only [trimmed, present]
    simp
  · change Option.some (Host.present Host.number [h.argument (.string _)]) = _
    simp [Host.present, Heap.argument, Value.isNull, Host.number, trimmed]

/-- Printed numbers are read back, also with blanks around them: an integer as the integer, and a finite
float as a number that is equal to it. The text of a float that is not finite stays a text where it is
typed in, and `VAL` makes nothing of it.
-/
theorem printed_numbers_read_back (h : Heap) (blankBefore : ∀ c ∈ before, isBlank c = true)
    (blankAfter : ∀ c ∈ after, isBlank c = true)
    : (∀ n : Int32, PrintedAndRead h before after (.integer n) (.integer n) (.integer n))
      ∧ (∀ x : Float, x.isFinite = true →
          ∃ v, PrintedAndRead h before after (.float x) v v
            ∧ StandsFor v (Float.value x)
            ∧ v.equals (.float x) = true)
      ∧ ∀ x : Float, x.isFinite = false →
          PrintedAndRead h before after (.float x) (.string (h.plain (.float x))) .null := by
  refine ⟨fun n => ?_, fun x finite => ?_, fun x outside => ?_⟩
  · have shown : h.plain (.integer n) = toString n.toInt := rfl
    have read : readNumber? (toString n.toInt).toList = some (.integer n) := by
      rw [readNumber?, int32?_toString]
    have done := printedAndRead shown rfl blankBefore blankAfter (ne_nil_of_read read)
      (not_blank_toString n.toInt)
    rwa [read] at done
  · have shown : h.plain (.float x) = FloatText.script x := rfl
    obtain ⟨v, read, stands⟩ := readNumber?_script finite
    have done := printedAndRead shown rfl blankBefore blankAfter (ne_nil_of_read read)
      (not_blank_script x)
    rw [read] at done
    exact ⟨v, done, stands, stands.equals finite⟩
  · have shown : h.plain (.float x) = FloatText.script x := rfl
    have length : (FloatText.script x).toList ≠ [] := by
      rcases script_of_not_finite outside with text | text | text <;> rw [text] <;> simp
    have done := printedAndRead shown rfl blankBefore blankAfter length (not_blank_script x)
    rwa [readNumber?_of_not_finite outside] at done

/-- The texts of the least integer and of minus zero are read with blanks around them. -/
theorem least_and_zero_read_back
    : (∀ c ∈ [' '], isBlank c = true)
      ∧ (∀ c ∈ ['\t', '\n'], isBlank c = true)
      ∧ readInput " -2147483648\t\n" = .integer (-2147483648)
      ∧ (Float.ofBits 0x8000000000000000).isFinite = true
      ∧ (∃ v, readInput " -0\t\n" = v ∧ StandsFor v 0)
      ∧ (Float.ofBits 0xFFF0000000000000).isFinite = false
      ∧ readInput " -Inf\t\n" = .string "-Inf" := by
  have space : ∀ c ∈ [' '], isBlank c = true := by simp [isBlank]
  have ends : ∀ c ∈ ['\t', '\n'], isBlank c = true := by simp [isBlank]
  obtain ⟨integers, finite, others⟩ := printed_numbers_read_back Heap.empty space ends
  have zero : (Float.ofBits 0x8000000000000000).isFinite = true := by decide +kernel
  have infinite : (Float.ofBits 0xFFF0000000000000).isFinite = false := by decide +kernel
  refine ⟨space, ends, ?_, zero, ?_, infinite, ?_⟩
  · have text : padded [' '] (Heap.empty.plain (.integer (-2147483648))) ['\t', '\n']
        = " -2147483648\t\n" := by decide +kernel
    exact text ▸ (integers (-2147483648)).typed
  · obtain ⟨v, done, stands, -⟩ := finite _ zero
    have text : padded [' '] (Heap.empty.plain (.float (Float.ofBits 0x8000000000000000))) ['\t', '\n']
        = " -0\t\n" := by decide +kernel
    have nothing : Float.value (Float.ofBits 0x8000000000000000) = 0 := by decide +kernel
    exact ⟨v, text ▸ done.typed, nothing ▸ stands⟩
  · have text : padded [' '] (Heap.empty.plain (.float (Float.ofBits 0xFFF0000000000000))) ['\t', '\n']
        = " -Inf\t\n" := by decide +kernel
    have word : Heap.empty.plain (.float (Float.ofBits 0xFFF0000000000000)) = "-Inf" := by
      decide +kernel
    rw [← text, (others _ infinite).typed, word]

end Host
end TaskMachine

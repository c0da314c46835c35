import TaskMachine.Proofs.Codec.Layouts
import TaskMachine.Proofs.Codec.Segments

/-!
Segments that are malformed. Whatever the bytes are, loading a segment of values that refer to nothing
either writes all its values or fails with malformed data and leaves the list as it was. Parsing is
persistent: what is found in some bytes is also found when more bytes follow. So a stored segment is
refused when any part of it is missing at the end, wherever it is cut.
-/

namespace TaskMachine

-----------------------------------------------------------------------------------------
-- Failures
-----------------------------------------------------------------------------------------

namespace Reader

variable {α β : Type}

/-- Reading fails, if at all, because the stored data is malformed. -/
def FailsMalformed (x : Reader α) : Prop :=
  ∀ s f s', x.run s = .error f s' → ∃ detail, f = .badFormat detail

namespace FailsMalformed

theorem pure (a : α) : FailsMalformed (Pure.pure a) := by
  intro s f s' failed
  cases failed

theorem throw (detail : String) : FailsMalformed (throw (.badFormat detail) : Reader α) := by
  intro s f s' failed
  cases failed
  exact ⟨detail, rfl⟩

/-- Steps that fail as malformed only do so one after another. -/
theorem bind {x : Reader α} {next : α → Reader β} (first : FailsMalformed x)
    (others : ∀ a, FailsMalformed (next a))
    : FailsMalformed (x >>= next) := by
  intro s f s' failed
  rcases run_bind_eq_error.mp failed with failed | ⟨a, s₁, -, failed⟩
  · exact first s f s' failed
  · exact others a s₁ f s' failed

theorem ite {condition : Prop} [Decidable condition] {x y : Reader α} (yes : FailsMalformed x)
    (no : FailsMalformed y)
    : FailsMalformed (if condition then x else y) := by
  split
  · exact yes
  · exact no

theorem mapM {f : β → Reader α} (each : ∀ b, FailsMalformed (f b)) (items : List β)
    : FailsMalformed (items.mapM f) := by
  induction items with
  | nil => exact pure []
  | cons b rest ih =>
      rw [List.mapM_cons]
      exact bind (each b) fun a => bind ih fun others => pure _

end FailsMalformed

/-- A shortage is malformed where the reader says so. -/
theorem bytes_failsMalformed (n : Nat) (detail : String)
    : FailsMalformed (Reader.bytes n (.badFormat detail)) := by
  intro s f s' failed
  rw [run_bytes] at failed
  split at failed
  · cases failed
  · cases failed
    exact ⟨detail, rfl⟩

private theorem string_failsMalformed (charset : Charset) (length : Nat)
    : FailsMalformed (Reader.string charset length) :=
  .bind (bytes_failsMalformed length _) fun _ => .pure _

/-- Where nothing can be referred to, a reference is malformed data. -/
theorem routine_failsMalformed (number : Nat) : FailsMalformed (Reader.routine .none number) := by
  intro s f s' failed
  cases failed
  exact ⟨_, rfl⟩

private theorem array_failsMalformed (number : Nat) : FailsMalformed (Reader.array .none number) := by
  intro s f s' failed
  cases failed
  exact ⟨_, rfl⟩

/-- Reading a value fails only for malformed data, by the cases of the tag. -/
theorem value_failsMalformed (charset : Charset) (node : TagNode)
    : FailsMalformed (Reader.value charset .none node) := by
  unfold Reader.value
  -- floats, nulls, integers, booleans and short floats
  apply FailsMalformed.ite (.pure _)
  apply FailsMalformed.ite (.pure _)
  apply FailsMalformed.ite (.pure _)
  apply FailsMalformed.ite (.pure _)
  apply FailsMalformed.ite (.pure _)
  -- texts
  apply FailsMalformed.ite (.ite (.pure _) ?_)
  apply FailsMalformed.ite (string_failsMalformed _ _)
  -- references, and tags of no kind
  apply FailsMalformed.ite (routine_failsMalformed _)
  apply FailsMalformed.ite (array_failsMalformed _)
  · exact .throw _
  · exact .bind (bytes_failsMalformed 1 _) fun _ => string_failsMalformed _ _

private theorem nodes_failsMalformed (count : Nat) (done : List TagNode)
    : FailsMalformed (Reader.nodes count done) := by
  induction count generalizing done with
  | zero => exact .pure done
  | succ count ih =>
      exact .bind (.bind (bytes_failsMalformed 6 _) fun _ => .pure _) fun next => ih (next :: done)

/-- Without routines and arrays, whatever keeps a segment from being read is malformed. -/
theorem segment_failsMalformed (charset : Charset) (count : Nat)
    : FailsMalformed (Reader.segment charset .none count) :=
  .bind (nodes_failsMalformed count []) fun _ => .mapM (value_failsMalformed charset) _

end Reader

-----------------------------------------------------------------------------------------
-- Bytes that go on
-----------------------------------------------------------------------------------------

namespace Layout

variable {α β : Type}

/-- What a reader finds in some bytes it also finds when more bytes follow, and it leaves those as well.
-/
def Persistent (take? : Bytes → Option (α × Bytes)) : Prop :=
  ∀ bytes a rest, take? bytes = some (a, rest) →
    ∀ more, take? (bytes ++ more) = some (a, rest ++ more)

/-- A datum that a persistent reader gives back with nothing left is not found if any part of its written
form is missing at the end: otherwise, the missing bytes would be left.
-/
theorem Persistent.recovers {take? : Bytes → Option (α × Bytes)} {written : Bytes} {a : α}
    (persistent : Persistent take?) (back : ∀ rest, take? (written ++ rest) = some (a, rest))
    : Recovers take? written a where
  back := back
  part front more cut lacking := by
    cases found : take? front with
    | none => rfl
    | some result =>
        obtain ⟨b, rest⟩ := result
        have whole := persistent front b rest found more
        have alone := back []
        rw [List.append_nil, cut, whole] at alone
        have nothing : rest ++ more = [] := congrArg Prod.snd (Option.some.inj alone)
        exact absurd (List.append_eq_nil_iff.mp nothing).2 lacking

namespace Persistent

variable {take? : Bytes → Option (α × Bytes)}

theorem constant (a : α) : Persistent fun bytes => some (a, bytes) := by
  intro bytes b rest found more
  cases found
  rfl

theorem nothing : Persistent fun _ => (none : Option (α × Bytes)) := by
  intro bytes a rest found
  cases found

theorem split (n : Nat) : Persistent (Bytes.split? n) := by
  intro bytes front back found more
  simp only [Bytes.split?] at found
  split at found
  · rename_i enough
    rw [List.length_take] at enough
    cases found
    have taken : (bytes ++ more).take n = bytes.take n := List.take_append_of_le_length (by omega)
    have left : (bytes ++ more).drop n = bytes.drop n ++ more := List.drop_append_of_le_length (by omega)
    rw [Bytes.split?, taken, left, if_pos]
    rw [List.length_take]
    omega
  · cases found

theorem ite {condition : Prop} [Decidable condition] {other? : Bytes → Option (α × Bytes)}
    (yes : Persistent take?) (no : Persistent other?)
    : Persistent fun bytes => if condition then take? bytes else other? bytes := by
  split
  · exact yes
  · exact no

theorem map (f : α → β) (persistent : Persistent take?)
    : Persistent fun bytes => (take? bytes).map fun (a, rest) => (f a, rest) := by
  intro bytes b rest found more
  simp only [Option.map_eq_some_iff, Prod.exists, Prod.mk.injEq] at found
  obtain ⟨a, left, taken, rfl, rfl⟩ := found
  simp only [persistent bytes a left taken more, Option.map_some]

/-- One reader after another. -/
theorem andThen {next? : α → Bytes → Option (β × Bytes)} {whole? : Bytes → Option (β × Bytes)}
    (first : Persistent take?) (second : ∀ a, Persistent (next? a))
    (goesOn : ∀ bytes a rest, take? bytes = some (a, rest) → whole? bytes = next? a rest)
    (stops : ∀ bytes, take? bytes = none → whole? bytes = none)
    : Persistent whole? := by
  intro bytes b rest found more
  cases taken : take? bytes with
  | none =>
      rw [stops bytes taken] at found
      cases found
  | some result =>
      obtain ⟨a, left⟩ := result
      rw [goesOn bytes a left taken] at found
      rw [goesOn _ a _ (first bytes a left taken more)]
      exact second a left b rest found more

end Persistent
end Layout

namespace Item

open Layout (Persistent)

private theorem persistent_text (charset : Charset) (length : Nat) : Persistent (text? charset length) :=
  (Persistent.split length).map fun front => Item.plain (.string (charset.decode front))

/-- The item of a node is found in all bytes that begin with those that it takes, by the cases of the
tag.
-/
theorem persistent_parse (charset : Charset) (node : TagNode)
    : Persistent (parse? charset node) := by
  unfold parse?
  -- floats, nulls, integers, booleans and short floats
  apply Persistent.ite (.constant _)
  apply Persistent.ite (.constant _)
  apply Persistent.ite (.constant _)
  apply Persistent.ite (.constant _)
  apply Persistent.ite (.constant _)
  -- texts
  apply Persistent.ite (.ite (.constant _) ?_)
  apply Persistent.ite (persistent_text _ _)
  -- references, and tags of no kind
  apply Persistent.ite (.constant _)
  apply Persistent.ite (.constant _)
  · exact .nothing
  · apply Persistent.andThen (.split 1) fun length => persistent_text charset (Bytes.toNat length)
    · intro bytes length rest taken
      simp only [taken]
    · intro bytes none
      simp only [none]

private theorem persistent_parseAll (charset : Charset) (nodes : List TagNode)
    : Persistent (parseAll? charset nodes) := by
  induction nodes with
  | nil => exact .constant []
  | cons node nodes ih =>
      apply Persistent.andThen (persistent_parse charset node) fun item => ih.map (item :: ·)
      · intro bytes item rest parsed
        simp only [parseAll?, parsed]
      · intro bytes none
        simp only [parseAll?, none]

private theorem persistent_nodes (count : Nat) : Persistent (nodes? count) := by
  induction count with
  | zero => exact .constant []
  | succ count ih =>
      apply Persistent.andThen (.split 6) fun front => ih.map (TagNode.ofBytes front :: ·)
      · intro bytes front rest taken
        simp only [nodes?, taken]
      · intro bytes none
        simp only [nodes?, none]

/-- A whole segment is found again when more bytes follow. -/
theorem persistent_segment (charset : Charset) (count : Nat)
    : Persistent (segment? charset count) := by
  apply Persistent.andThen (persistent_nodes count) (persistent_parseAll charset)
  · intro bytes nodes rest parsed
    simp only [segment?, parsed]
  · intro bytes none
    simp only [segment?, none]

end Item

-----------------------------------------------------------------------------------------
-- Stored segments
-----------------------------------------------------------------------------------------

section

variable {σ : Type} {h : Heap} {numbering : Numbering σ}

/-- A text that was stored is not too long. -/
theorem short_of_saveValue {v : Value} {s s' : σ} {stored : TagNode × Bytes}
    (saved : (saveValue .utf8 h numbering v).run s = .ok stored s')
    : v.Short := by
  cases v with
  | string text =>
      cases stored : saveString .utf8 text with
      | ok parts => exact saveString_ok_iff.mp ⟨parts, stored⟩
      | error fault =>
          simp only [saveValue, stored] at saved
          cases saved
  | null | integer | boolean | float | callable | array | object => trivial

theorem short_of_mapM {values : List Value} {s s' : σ} {stored : List (TagNode × Bytes)}
    (saved : (values.mapM (saveValue .utf8 h numbering)).run s = .ok stored s')
    : ∀ v ∈ values, v.Short := by
  induction values generalizing s s' stored with
  | nil =>
      intro v member
      cases member
  | cons v values ih =>
      obtain ⟨first, s₁, others, savedFirst, savedOthers, -⟩ := run_mapM_cons_eq_ok.mp saved
      exact List.forall_mem_cons.mpr ⟨short_of_saveValue savedFirst, ih savedOthers⟩

/-- The stored form of values that stand for themselves is parsed into the rounded values, and none of
its proper parts in front can be parsed.
-/
theorem recovers_saveSegment {values : List Value} {s s' : σ} {stored : Bytes}
    (standAlone : ∀ v ∈ values, ¬ v.IsHandle)
    (saved : (saveSegment .utf8 h numbering values).run s = .ok stored s')
    : Layout.Recovers (Item.segment? .utf8 values.length) stored
        ((values.map Value.rounded).map .plain) := by
  obtain ⟨parts, s₁, savedAll, -⟩ := run_bind_eq_ok.mp saved
  obtain ⟨bytes, again, parsed⟩ := saveSegment_plain standAlone (short_of_mapM savedAll) s
  rw [saved] at again
  cases again
  rw [List.map_map]
  exact (Item.persistent_segment .utf8 values.length).recovers parsed

end

-----------------------------------------------------------------------------------------
-- Loading malformed segments
-----------------------------------------------------------------------------------------

/-- What cannot be parsed cannot be read. -/
theorem Reader.segment_of_not_parsed {charset : Charset} {bytes : Bytes} {count : Nat}
    (malformed : Item.segment? charset count bytes = none) (resolver : Resolver) (h : Heap)
    (refs : References)
    : ∃ f s', (Reader.segment charset resolver count).run ⟨bytes, h, refs⟩ = .error f s' := by
  cases outcome : (Reader.segment charset resolver count).run ⟨bytes, h, refs⟩ with
  | error f s' => exact ⟨f, s', rfl⟩
  | ok values s' =>
      obtain ⟨items, rest, _, parsed, -, -⟩ := Reader.segment_eq_ok.mp outcome
      rw [malformed] at parsed
      cases parsed

namespace Filling

/-- Loading failed because of malformed data, and the list is as it was. -/
def Refused (target : List Value) (outcome : EStateM.Result LoadFailure Filling Unit) : Prop :=
  ∃ detail s, outcome = .error (.fault (.badFormat detail)) ⟨s, target⟩

/-- A segment that is not read is refused, and the list is as it was. -/
theorem refused_of_error {charset : Charset} {target : List Value} {offset count : Nat}
    {s s' : Loading} {f : Fault}
    (failed : (Reader.segment charset .none count).run s = .error f s')
    : Refused target ((segment charset .none offset count).run ⟨s, target⟩) := by
  obtain ⟨detail, rfl⟩ := Reader.segment_failsMalformed charset count s f s' failed
  exact ⟨detail, s', run_segment_of_error failed⟩

/-- Whatever the bytes are, a segment of values that refer to nothing is either loaded, and as many
values as it was to have are written over the list at their place, or it is refused as malformed with
the list as it was, unless its place is one that no list has. Nulls, booleans, integers, floats and
texts that were stored are loaded from all of their bytes, rounded, at any place that a list has, and
refused at every place if any part of these is missing at the end.
-/
theorem segment_refuses_malformed {σ : Type} (h : Heap) (numbering : Numbering σ) (s : σ)
    (target : List Value) (offset : Nat) (h' : Heap) (refs : References)
    : (∀ (charset : Charset) (bytes : Bytes) (count : Nat),
        (∃ (values : List Value) (s' : Loading),
          values.length = count
          ∧ (segment charset .none offset count).run ⟨⟨bytes, h', refs⟩, target⟩
            = .ok () ⟨s', overlay target offset values⟩)
        ∨ Refused target ((segment charset .none offset count).run ⟨⟨bytes, h', refs⟩, target⟩)
        ∨ (maxListLength < offset + count
          ∧ ∃ s',
              (segment charset .none offset count).run ⟨⟨bytes, h', refs⟩, target⟩
              = .error .tooLong ⟨s', target⟩))
      ∧ ∀ (values : List Value) (stored : Bytes) (s' : σ),
          (∀ v ∈ values, ¬ v.IsHandle)
          → (saveSegment .utf8 h numbering values).run s = .ok stored s'
          → (offset + values.length ≤ maxListLength
              → (segment .utf8 .none offset values.length).run ⟨⟨stored, h', refs⟩, target⟩
                = .ok () ⟨⟨[], h', refs⟩, overlay target offset (values.map Value.rounded)⟩)
            ∧ ∀ front, front <+: stored → front ≠ stored
                → Refused target
                    ((segment .utf8 .none offset values.length).run
                      ⟨⟨front, h', refs⟩, target⟩) := by
  constructor
  · intro charset bytes count
    cases outcome : (Reader.segment charset .none count).run ⟨bytes, h', refs⟩ with
    | error f s' => exact .inr (.inl (refused_of_error outcome))
    | ok values s' =>
        have length := Reader.length_of_segment outcome
        by_cases possible : offset + count ≤ target.length ∨ offset + count ≤ maxListLength
        · exact .inl ⟨values, s', length, run_segment_of_ok outcome possible⟩
        · have short : target.length < offset + count := by omega
          have impossible : maxListLength < offset + count := by omega
          exact .inr (.inr ⟨impossible, s', run_segment_of_beyond outcome short impossible⟩)
  · intro values stored s' standAlone saved
    have recovers := recovers_saveSegment standAlone saved
    constructor
    · intro possible
      have parsed := recovers.back []
      rw [List.append_nil] at parsed
      exact run_segment_of_ok (Reader.segment_plain parsed .none h' refs) (.inr possible)
    · intro front begins part
      obtain ⟨more, cut⟩ := begins
      have lacking : more ≠ [] := by
        intro none
        exact part (by rw [← cut, none, List.append_nil])
      have malformed := recovers.part front more cut.symm lacking
      obtain ⟨f, s', failed⟩ := Reader.segment_of_not_parsed malformed .none h' refs
      exact refused_of_error failed

/-- A value of each kind, cut within the nodes and within the last text. -/
theorem segment_refuses_parts
    : (saveSegment .utf8 .empty .none
          [.null, .boolean true, .integer (-7), .float (Float.ofBits 0xBFE0000000000000),
            .string "é"]).run ()
        = .ok
            [0, 1, 0, 0, 0, 0, 0, 3, 1, 0, 0, 0, 0, 2, 249, 255, 255, 255, 128, 0, 0, 0, 0, 128,
              0, 4, 3, 0, 0, 0, 2, 195, 169] ()
      ∧ Refused [.integer 5]
          ((segment .utf8 .none 1 5).run ⟨⟨[0, 1, 0, 0, 0, 0, 0, 3], .empty, {}⟩, [.integer 5]⟩)
      ∧ Refused [.integer 5]
          ((segment .utf8 .none 1 5).run
            ⟨⟨[0, 1, 0, 0, 0, 0, 0, 3, 1, 0, 0, 0, 0, 2, 249, 255, 255, 255, 128, 0, 0, 0, 0, 128,
                0, 4, 3, 0, 0, 0, 2, 195], .empty, {}⟩, [.integer 5]⟩) := by
  have standAlone : ∀ v ∈ [.null, .boolean true, .integer (-7),
      .float (Float.ofBits 0xBFE0000000000000), .string "é"], ¬ Value.IsHandle v := by
    simp [Value.IsHandle]
  obtain ⟨-, stored⟩ :=
    segment_refuses_malformed .empty .none () [.integer 5] 1 .empty {}
  have loads := stored _ _ () standAlone rfl
  exact ⟨rfl, loads.2 _ (by decide) (by decide), loads.2 _ (by decide) (by decide)⟩

/-- Where no list is long enough, a segment is neither loaded nor refused, even if it has no values:
the program ends.
-/
theorem segment_ends_beyond
    : (segment .utf8 .none (2 ^ 63 - 1) 0).run ⟨⟨[], .empty, {}⟩, [.integer 5]⟩
        = .error .tooLong ⟨⟨[], .empty, {}⟩, [.integer 5]⟩
      ∧ ¬ Refused [.integer 5]
          ((segment .utf8 .none (2 ^ 63 - 1) 0).run ⟨⟨[], .empty, {}⟩, [.integer 5]⟩) := by
  have ends : (segment .utf8 .none (2 ^ 63 - 1) 0).run ⟨⟨[], .empty, {}⟩, [.integer 5]⟩
      = .error .tooLong ⟨⟨[], .empty, {}⟩, [.integer 5]⟩ := rfl
  refine ⟨ends, ?_⟩
  rw [ends]
  rintro ⟨detail, s, refused⟩
  cases refused

end Filling
end TaskMachine

import TaskMachine.Proofs.Codec.Rounding

/-!
Segments of values that stand for themselves. They can always be stored, and loading them puts the
rounded values where they belong, leaves the bytes after them unread and the rest of the list as it
was.
-/

namespace TaskMachine

-----------------------------------------------------------------------------------------
-- Saving
-----------------------------------------------------------------------------------------

/-- A text is short enough for its length to be stored. -/
def Value.Short : Value → Prop
  | .string text => (Charset.utf8.encode text).length < 2 ^ 32
  | _ => True

section

variable {σ : Type} {h : Heap} {numbering : Numbering σ}

/-- What is stored of a value that stands for itself is parsed into that value. -/
theorem parse?_saveValue {v : Value} {s s' : σ} {stored : TagNode × Bytes} (storable : v.Storable)
    (standsAlone : ¬ v.IsHandle) (saved : (saveValue .utf8 h numbering v).run s = .ok stored s')
    : ∀ rest, Item.parse? .utf8 stored.1 (stored.2 ++ rest) = some (.plain v, rest) := by
  obtain ⟨item, stores, parsed⟩ := stores_of_saveValue storable saved
  cases stores with
  | plain => exact parsed
  | routine | array => exact absurd trivial standsAlone

/-- A value that stands for itself can be stored, and its stored form is parsed into the rounded
value, by the kinds of values.
-/
theorem saveValue_plain {v : Value} (standsAlone : ¬ v.IsHandle) (short : v.Short) (s : σ)
    : ∃ stored : TagNode × Bytes,
        (saveValue .utf8 h numbering v).run s = .ok stored s
        ∧ ∀ rest, Item.parse? .utf8 stored.1 (stored.2 ++ rest) = some (.plain v.rounded, rest) := by
  have saved : ∃ stored, (saveValue .utf8 h numbering v).run s = .ok stored s := by
    cases v with
    | null | integer | boolean | float => exact ⟨_, rfl⟩
    | string text =>
        obtain ⟨stored, saved⟩ := saveString_ok_iff.mpr short
        refine ⟨stored, ?_⟩
        simp only [saveValue, saved]
        rfl
    | callable | array | object => exact absurd trivial standsAlone
  obtain ⟨stored, saved⟩ := saved
  refine ⟨stored, saved, ?_⟩
  cases v with
  | float x =>
      cases saved
      intro rest
      rw [Item.parse?, Real48.isReal_encode x, if_pos rfl]
      rfl
  | null | integer | boolean | string => exact parse?_saveValue trivial standsAlone saved
  | callable | array | object => exact absurd trivial standsAlone

/-- Values that stand for themselves can be stored one after another, by induction on them. -/
theorem mapM_saveValue_plain {values : List Value} (standAlone : ∀ v ∈ values, ¬ v.IsHandle)
    (short : ∀ v ∈ values, v.Short) (s : σ)
    : ∃ stored : List (TagNode × Bytes),
        (values.mapM (saveValue .utf8 h numbering)).run s = .ok stored s
        ∧ stored.length = values.length
        ∧ ∀ rest,
            Item.parseAll? .utf8 (stored.map (·.1)) (stored.flatMap (·.2) ++ rest)
            = some (values.map fun v => .plain v.rounded, rest) := by
  induction values with
  | nil => exact ⟨[], rfl, rfl, fun rest => rfl⟩
  | cons v values ih =>
      obtain ⟨first, saved, parsed⟩ :=
        saveValue_plain (standAlone v List.mem_cons_self) (short v List.mem_cons_self) s
      obtain ⟨others, savedOthers, length, parsedOthers⟩ :=
        ih (fun w member => standAlone w (List.mem_cons_of_mem v member))
          (fun w member => short w (List.mem_cons_of_mem v member))
      refine ⟨first :: others, ?_, by simp only [List.length_cons, length], fun rest => ?_⟩
      · exact run_mapM_cons_eq_ok.mpr ⟨first, s, others, saved, savedOthers, rfl⟩
      · simp only [List.map_cons, List.flatMap_cons, List.append_assoc, Item.parseAll?, parsed,
          parsedOthers, Option.map_some]

/-- Values that stand for themselves can be stored as a segment. -/
theorem saveSegment_plain {values : List Value} (standAlone : ∀ v ∈ values, ¬ v.IsHandle)
    (short : ∀ v ∈ values, v.Short) (s : σ)
    : ∃ bytes,
        (saveSegment .utf8 h numbering values).run s = .ok bytes s
        ∧ ∀ rest,
            Item.segment? .utf8 values.length (bytes ++ rest)
            = some (values.map fun v => .plain v.rounded, rest) := by
  obtain ⟨stored, saved, length, parsed⟩ := mapM_saveValue_plain standAlone short s
  refine ⟨_, run_bind_eq_ok.mpr ⟨stored, s, saved, rfl⟩, fun rest => ?_⟩
  have nodes := nodes?_append (stored.map (·.1)) (stored.flatMap (·.2) ++ rest)
  rw [List.length_map, length, List.flatMap_map] at nodes
  simp only [Item.segment?, List.append_assoc, nodes, parsed]

end

-----------------------------------------------------------------------------------------
-- Loading
-----------------------------------------------------------------------------------------

namespace Item

/-- Values that stand for themselves need no resolving. -/
theorem resolveAll_plain (resolver : Resolver) (h : Heap) (values : List Value)
    : resolveAll resolver h (values.map .plain) = .ok (h, values) := by
  induction values with
  | nil => rfl
  | cons v values ih => simp only [List.map_cons, resolveAll, resolve, ih, Except.map]

/-- Values that stand for themselves refer to nothing. -/
theorem foldl_note_plain (refs : References) (values : List Value)
    : (values.map .plain).foldl note refs = refs := by
  induction values with
  | nil => rfl
  | cons v values ih => exact ih

end Item

-----------------------------------------------------------------------------------------
-- Lists that are written over
-----------------------------------------------------------------------------------------

/-- Values written over a list from a place on. A list that ends before is filled up with nulls. -/
def overlay (target : List Value) (offset : Nat) (values : List Value) : List Value :=
  target.take offset ++ List.replicate (offset - target.length) .null ++ values
    ++ target.drop (offset + values.length)

private theorem length_overlay (target : List Value) (offset : Nat) (values : List Value)
    : (overlay target offset values).length = max target.length (offset + values.length) := by
  simp only [overlay, List.length_append, List.length_take, List.length_replicate, List.length_drop]
  omega

/-- What stands in front of the place that values are written to: what was there, or what the list was
filled up with.
-/
theorem length_overlay_front (target : List Value) (offset : Nat)
    : (target.take offset ++ List.replicate (offset - target.length) Value.null).length = offset := by
  simp only [List.length_append, List.length_take, List.length_replicate]
  omega

/-- The values stand at their place. -/
theorem take_drop_overlay (target : List Value) (offset : Nat) (values : List Value)
    : ((overlay target offset values).drop offset).take values.length = values := by
  have front := length_overlay_front target offset
  rw [overlay, List.append_assoc, List.drop_left' front, List.take_left' rfl]

/-- All other places are as they were. -/
theorem getElem?_overlay_of_outside {target values : List Value} {offset i : Nat}
    (inside : i < target.length) (outside : i < offset ∨ offset + values.length ≤ i)
    : (overlay target offset values)[i]? = target[i]? := by
  have front := length_overlay_front target offset
  rw [overlay, List.append_assoc]
  rcases outside with before | behind
  · rw [List.getElem?_append_left (by omega), List.getElem?_append_left (by rw [List.length_take]; omega),
      List.getElem?_take_of_lt before]
  · rw [List.getElem?_append_right (by omega), List.getElem?_append_right (by omega),
      List.getElem?_drop, front]
    congr 1
    omega

/-- A list that ended before the place of the values was filled up with nulls. -/
theorem getElem?_overlay_of_gap {target values : List Value} {offset i : Nat}
    (behind : target.length ≤ i) (before : i < offset)
    : (overlay target offset values)[i]? = some .null := by
  have front := length_overlay_front target offset
  rw [overlay, List.append_assoc, List.getElem?_append_left (by omega),
    List.getElem?_append_right (by rw [List.length_take]; omega),
    List.getElem?_replicate_of_lt (by rw [List.length_take]; omega)]

private theorem overlay_nil {target : List Value} {place : Nat} (fits : place ≤ target.length)
    : overlay target place [] = target := by
  have gap : place - target.length = 0 := by omega
  rw [overlay, gap, List.replicate_zero, List.append_nil, List.append_nil, List.length_nil,
    Nat.add_zero, List.take_append_drop]

/-- Values are written over a list by writing the first one and then the others. -/
theorem overlay_set {target values : List Value} {place : Nat} (v : Value)
    (fits : place < target.length)
    : overlay (target.set place v) (place + 1) values = overlay target place (v :: values) := by
  have gap : place - target.length = 0 := by omega
  have gap' : place + 1 - (target.set place v).length = 0 := by
    rw [List.length_set]
    omega
  have front : (target.set place v).take (place + 1) = target.take place ++ [v] := by
    rw [List.take_add_one, List.take_set_of_le (Nat.le_refl place), List.getElem?_set_self fits]
    rfl
  have back : (target.set place v).drop (place + 1 + values.length)
      = target.drop (place + (values.length + 1)) := by
    rw [List.drop_set_of_lt (by omega), Nat.add_assoc, Nat.add_comm 1]
  rw [overlay, overlay, gap, gap', front, back, List.length_cons]
  simp only [List.replicate_zero, List.append_nil, List.append_assoc, List.singleton_append]

/-- It makes no difference if the list is filled up with nulls before. -/
theorem overlay_lengthened (target values : List Value) (offset : Nat)
    : overlay (target ++ List.replicate (offset + values.length - target.length) .null) offset values
      = overlay target offset values := by
  have longer : offset - (target ++ List.replicate (offset + values.length - target.length)
      Value.null).length = 0 := by
    rw [List.length_append, List.length_replicate]
    omega
  have nulls : min (offset - target.length) (offset + values.length - target.length)
      = offset - target.length := by omega
  rw [overlay, overlay, longer, List.take_append, List.take_replicate, nulls, List.drop_append,
    List.drop_replicate, Nat.sub_self]
  simp only [List.replicate_zero, List.append_nil]

-----------------------------------------------------------------------------------------
-- Loading in place
-----------------------------------------------------------------------------------------

theorem Reader.length_of_segment {charset : Charset} {resolver : Resolver} {count : Nat}
    {values : List Value} {s s' : Loading}
    (read : (Reader.segment charset resolver count).run s = .ok values s')
    : values.length = count := by
  obtain ⟨items, _, _, parsed, resolved, -⟩ := Reader.segment_eq_ok.mp read
  rw [Item.length_resolveAll resolved, Item.length_segment parsed]

namespace Filling

variable {s : Loading} {target : List Value}

private theorem run_read {α : Type} (x : Reader α)
    : (read x).run ⟨s, target⟩
      = match x.run s with
        | .ok a s' => .ok a ⟨s', target⟩
        | .error f s' => .error (.fault f) ⟨s', target⟩ :=
  rfl

/-- Values that fit are written over the list, by induction on them. -/
theorem run_write {place : Nat} {values : List Value} (fits : place + values.length ≤ target.length)
    : (write place values).run ⟨s, target⟩ = .ok () ⟨s, overlay target place values⟩ := by
  induction values generalizing place target with
  | nil =>
      have unchanged : overlay target place [] = target := overlay_nil fits
      rw [unchanged]
      rfl
  | cons v values ih =>
      rw [List.length_cons] at fits
      have next : place + 1 + values.length ≤ (target.set place v).length := by
        rw [List.length_set]
        omega
      rw [write, EStateM.run_bind, EStateM.run_modify, ← overlay_set v (by omega)]
      exact ih next

/-- A list is filled up unless it would be longer than any list is. -/
theorem run_lengthen {length : Nat} (possible : length ≤ target.length ∨ length ≤ maxListLength)
    : (lengthen length).run ⟨s, target⟩
      = .ok () ⟨s, target ++ List.replicate (length - target.length) .null⟩ := by
  simp only [lengthen, EStateM.run_bind, EStateM.run_get]
  by_cases short : target.length < length
  · have inside : ¬ maxListLength < length := by omega
    rw [if_pos short, if_neg inside]
    rfl
  · have gap : length - target.length = 0 := by omega
    rw [if_neg short, gap, List.replicate_zero, List.append_nil]
    rfl

/-- A list is not filled up to a length that no list has. -/
theorem run_lengthen_tooLong {length : Nat} (short : target.length < length)
    (impossible : maxListLength < length)
    : (lengthen length).run ⟨s, target⟩ = .error .tooLong ⟨s, target⟩ := by
  simp only [lengthen, EStateM.run_bind, EStateM.run_get, if_pos short, if_pos impossible]
  rfl

variable {charset : Charset} {resolver : Resolver} {offset count : Nat} {s' : Loading}
  {values : List Value}

/-- What cannot be read is not loaded, and the list is as it was. -/
theorem run_segment_of_error {f : Fault}
    (failed : (Reader.segment charset resolver count).run s = .error f s')
    : (segment charset resolver offset count).run ⟨s, target⟩ = .error (.fault f) ⟨s', target⟩ := by
  rw [segment, EStateM.run_bind, run_read, failed]

/-- The values that were read are written over the list. -/
theorem run_segment_of_ok (read : (Reader.segment charset resolver count).run s = .ok values s')
    (possible : offset + count ≤ target.length ∨ offset + count ≤ maxListLength)
    : (segment charset resolver offset count).run ⟨s, target⟩
      = .ok () ⟨s', overlay target offset values⟩ := by
  have length := Reader.length_of_segment read
  have fits : offset + values.length
      ≤ (target ++ List.replicate (offset + count - target.length) Value.null).length := by
    rw [List.length_append, List.length_replicate]
    omega
  have written := @run_write s' _ offset values fits
  rw [← length, overlay_lengthened] at written
  rw [← length] at possible
  rw [segment, EStateM.run_bind, run_read, read, ← length]
  simp only [EStateM.run_bind, run_lengthen possible, written]

/-- Values that were read are not loaded if no list has a place for them. -/
theorem run_segment_of_beyond
    (read : (Reader.segment charset resolver count).run s = .ok values s')
    (short : target.length < offset + count) (impossible : maxListLength < offset + count)
    : (segment charset resolver offset count).run ⟨s, target⟩ = .error .tooLong ⟨s', target⟩ := by
  rw [segment, EStateM.run_bind, run_read, read]
  simp only [EStateM.run_bind, run_lengthen_tooLong short impossible]

end Filling

/-- Values that stand for themselves are read as they were parsed. -/
theorem Reader.segment_plain {charset : Charset} {bytes rest : Bytes} {values : List Value}
    {count : Nat} (parsed : Item.segment? charset count bytes = some (values.map .plain, rest))
    (resolver : Resolver) (h : Heap) (refs : References)
    : (Reader.segment charset resolver count).run ⟨bytes, h, refs⟩
      = .ok values ⟨rest, h, refs⟩ := by
  have resolved := Item.resolveAll_plain resolver h values
  have noted := Item.foldl_note_plain refs values
  exact Reader.segment_eq_ok.mpr ⟨_, _, _, parsed, resolved, by rw [noted]⟩

namespace Filling

/-- Nulls, booleans, integers, floats and texts can always be saved as a segment, without numbering
anything. Loading it from the bytes, whatever follows them, gives the values back, only with the
floats rounded, and leaves what follows unread. They are written over the list at their place, which
is any place where a list can have them, nothing else of the list changes, and if it ended before that
place it is filled up with nulls.
-/
theorem segment_saveSegment {σ : Type} (h : Heap) (numbering : Numbering σ) (s : σ)
    (values : List Value) (standAlone : ∀ v ∈ values, ¬ v.IsHandle)
    (short : ∀ text, .string text ∈ values → (Charset.utf8.encode text).length < 2 ^ 32)
    : ∃ bytes,
        (saveSegment .utf8 h numbering values).run s = .ok bytes s
        ∧ ∀ (resolver : Resolver) (target : List Value) (offset : Nat) (rest : Bytes) (h' : Heap)
            (refs : References),
            offset + values.length ≤ maxListLength
            → ∃ loaded,
                (segment .utf8 resolver offset values.length).run
                    ⟨⟨bytes ++ rest, h', refs⟩, target⟩
                  = .ok () ⟨⟨rest, h', refs⟩, loaded⟩
                ∧ loaded.length = max target.length (offset + values.length)
                ∧ (loaded.drop offset).take values.length = values.map Value.rounded
                ∧ (∀ i, i < target.length → i < offset ∨ offset + values.length ≤ i
                    → loaded[i]? = target[i]?)
                ∧ ∀ i, target.length ≤ i → i < offset → loaded[i]? = some .null := by
  have short : ∀ v ∈ values, v.Short := by
    intro v member
    cases v with
    | string text => exact short text member
    | null | integer | boolean | float | callable | array | object => trivial
  obtain ⟨bytes, saved, parsed⟩ := saveSegment_plain (h := h) standAlone short s
  refine ⟨bytes, saved, fun resolver target offset rest h' refs possible => ?_⟩
  have items := parsed rest
  rw [← Function.comp_def Item.plain Value.rounded, ← List.map_map] at items
  have read := Reader.segment_plain items resolver h' refs
  have length : (values.map Value.rounded).length = values.length := List.length_map _
  refine ⟨_, run_segment_of_ok read (.inr possible), ?_, ?_, ?_, ?_⟩
  · rw [length_overlay, length]
  · rw [← length, take_drop_overlay]
  · intro i inside outside
    exact getElem?_overlay_of_outside inside (by rwa [length])
  · intro i behind before
    exact getElem?_overlay_of_gap behind before

/-- One value of each kind is loaded over a list that ends before its place, in front of more bytes.
-/
theorem segment_saveSegment_kinds
    : ∃ bytes,
        (saveSegment .utf8 .empty .none
          [.null, .boolean true, .integer (-7), .float 0.5, .string "é"]).run () = .ok bytes ()
        ∧ ∃ loaded,
            (segment .utf8 .none 3 5).run
                ⟨⟨bytes ++ [255, 0], .empty, {}⟩, [.integer 1, .integer 2]⟩
              = .ok () ⟨⟨[255, 0], .empty, {}⟩, loaded⟩
            ∧ loaded.length = 8
            ∧ (loaded.drop 3).take 5
              = [.null, .boolean true, .integer (-7),
                  .float (Real48.decode (Real48.encode 0.5)), .string "é"]
            ∧ loaded[1]? = some (.integer 2)
            ∧ loaded[2]? = some .null := by
  have standAlone
      : ∀ v ∈ [.null, .boolean true, .integer (-7), .float 0.5, .string "é"], ¬ Value.IsHandle v := by
    simp [Value.IsHandle]
  have short
      : ∀ text, Value.string text ∈ [.null, .boolean true, .integer (-7), .float 0.5, .string "é"]
        → (Charset.utf8.encode text).length < 2 ^ 32 := by
    intro text member
    have same : text = "é" := by simpa using member
    subst same
    decide
  obtain ⟨bytes, saved, loads⟩ := segment_saveSegment .empty .none () _ standAlone short
  obtain ⟨loaded, done, length, values, others, gap⟩ :=
    loads .none [.integer 1, .integer 2] 3 [255, 0] .empty {} (by decide)
  exact ⟨bytes, saved, loaded, done, length, values, others 1 (by decide) (by decide),
    gap 2 (by decide) (by decide)⟩

/-- A null that was saved is not loaded at a place that no list has. -/
theorem segment_saveSegment_beyond
    : (saveSegment .utf8 .empty .none [.null]).run () = .ok [0, 1, 0, 0, 0, 0] ()
      ∧ (segment .utf8 .none (2 ^ 63 - 1) 1).run ⟨⟨[0, 1, 0, 0, 0, 0], .empty, {}⟩, []⟩
        = .error .tooLong ⟨⟨[], .empty, {}⟩, []⟩ :=
  ⟨rfl, rfl⟩

end Filling
end TaskMachine

import TaskMachine.Proofs.Draft.Entries

/-!
The source lines of a routine. Marks are entered in the order of the code, and of several marks at one
place the last one stays, so that the places in the table increase. The search among them finds the mark
that was made last when the code had come no further than the instruction.
-/

namespace TaskMachine

-----------------------------------------------------------------------------------------
-- Searching the marks
-----------------------------------------------------------------------------------------

namespace Routine

/-- The places of the marks increase. -/
def Increasing (lines : List (Nat × Nat)) : Prop :=
  lines.Pairwise fun mark next => mark.1 < next.1

/-- The line is that of the last mark at or before an instruction. -/
def Marks (lines : List (Nat × Nat)) (pc line : Nat) : Prop :=
  ∃ before start after,
    lines = before ++ (start, line) :: after ∧ start ≤ pc ∧ ∀ mark ∈ after, pc < mark.1

/-- The search has come down to `size` marks from `base` on. All marks behind them are behind the
instruction, and unless nothing has been left out in front, the first of them is not.
-/
structure Narrowed (lines : Array (Nat × Nat)) (pc base size : Nat) : Prop where
  positive : 0 < size
  inside : base + size ≤ lines.size
  front : base = 0 ∨ ∃ mark, lines[base]? = some mark ∧ mark.1 ≤ pc
  beyond : ∀ i mark, base + size ≤ i → lines[i]? = some mark → pc < mark.1

variable {lines : Array (Nat × Nat)} {pc base size : Nat}

/-- A mark behind the others is the last one for what it is not behind. -/
theorem marks_concat {lines : List (Nat × Nat)} {pc line start new : Nat}
    : Marks (lines ++ [(start, new)]) pc line
      ↔ if start ≤ pc then line = new else Marks lines pc line := by
  constructor
  · rintro ⟨before, start', after, same, near, beyond⟩
    rcases concat_eq_append_cons.mp same with ⟨rfl, equal, rfl⟩ | ⟨others, rfl, rfl⟩
    · cases equal
      exact if_pos near ▸ rfl
    · rw [if_neg (Nat.not_le.mpr (beyond _ (List.mem_append_right _ (List.mem_singleton_self _))))]
      exact ⟨before, start', others, rfl, near, fun mark member =>
        beyond mark (List.mem_append_left _ member)⟩
  · split
    · rename_i near
      rintro rfl
      exact ⟨lines, start, [], rfl, near, fun _ none => absurd none List.not_mem_nil⟩
    · rename_i far
      rintro ⟨before, start', after, rfl, near, beyond⟩
      refine ⟨before, start', after ++ [(start, new)], by simp, near, fun mark member => ?_⟩
      rcases List.mem_append.mp member with earlier | here
      · exact beyond mark earlier
      · exact List.mem_singleton.mp here ▸ Nat.lt_of_not_le far

theorem Increasing.lt (increasing : Increasing lines.toList) {i j : Nat} {mark next : Nat × Nat}
    (here : lines[i]? = some mark) (there : lines[j]? = some next) (less : i < j)
    : mark.1 < next.1 := by
  obtain ⟨inside, rfl⟩ := Array.getElem?_eq_some_iff.mp here
  obtain ⟨inside', rfl⟩ := Array.getElem?_eq_some_iff.mp there
  exact List.pairwise_iff_getElem.mp increasing i j inside inside' less

/-- Whichever half is kept, the search comes down to it. -/
theorem Narrowed.half (narrowed : Narrowed lines pc base size) (increasing : Increasing lines.toList)
    (several : 1 < size)
    : Narrowed lines pc
        (if (lines[base + size / 2]?).any (fun mark => mark.1 ≤ pc) then base + size / 2 else base)
        (size - size / 2) := by
  have inside := narrowed.inside
  obtain ⟨middle, found⟩ : ∃ middle, lines[base + size / 2]? = some middle :=
    ⟨_, Array.getElem?_eq_getElem (by omega)⟩
  rw [found, Option.any_some]
  by_cases near : middle.1 ≤ pc
  · rw [if_pos (by simpa using near)]
    refine ⟨by omega, by omega, .inr ⟨middle, found, near⟩, fun i mark far there => ?_⟩
    exact narrowed.beyond i mark (by omega) there
  · rw [if_neg (by simpa using near)]
    refine ⟨by omega, by omega, narrowed.front, fun i mark far there => ?_⟩
    -- all that is cut off comes after the mark in the middle
    rcases Nat.eq_or_lt_of_le (show base + size / 2 ≤ i by omega) with rfl | less
    · cases found.symm.trans there
      exact Nat.lt_of_not_le near
    · exact Nat.lt_trans (Nat.lt_of_not_le near) (increasing.lt found there less)

/-- The search comes down to a single mark, by induction on the number of steps. -/
theorem Narrowed.search (increasing : Increasing lines.toList) {fuel : Nat} (enough : size ≤ fuel)
    (narrowed : Narrowed lines pc base size)
    : Narrowed lines pc (lastMark lines pc fuel base size) 1 := by
  induction fuel generalizing base size with
  | zero => exact absurd narrowed.positive (by omega)
  | succ fuel ih =>
      rw [lastMark]
      split
      · rename_i single
        have one : size = 1 := Nat.le_antisymm single narrowed.positive
        exact one ▸ narrowed
      · rename_i several
        exact ih (by omega) (narrowed.half increasing (by omega))

/-- A single mark that the search has come down to is the last one at or before the instruction, unless
there is none.
-/
theorem Narrowed.marks_iff {i start line line' : Nat} (single : Narrowed lines pc i 1)
    (found : lines[i]? = some (start, line'))
    : Marks lines.toList pc line ↔ start ≤ pc ∧ line' = line := by
  have listed : lines.toList[i]? = some (start, line') := by rwa [Array.getElem?_toList]
  obtain ⟨inside, here⟩ := List.getElem?_eq_some_iff.mp listed
  constructor
  · rintro ⟨before, start', after, split, near, beyond⟩
    have place : lines.toList[before.length]? = some (start', line) := by
      rw [split, List.getElem?_append_right (Nat.le_refl _), Nat.sub_self, List.getElem?_cons_zero]
    rcases Nat.lt_trichotomy i before.length with less | same | greater
    · have far := single.beyond _ _ less (by rwa [← Array.getElem?_toList])
      exact absurd near (Nat.not_le.mpr far)
    · rw [same, place] at listed
      cases listed
      exact ⟨near, rfl⟩
    · rcases single.front with first | ⟨mark, there, close⟩
      · omega
      · rw [← Array.getElem?_toList, split, List.getElem?_append_right (Nat.le_of_lt greater)] at there
        obtain ⟨k, next⟩ := Nat.exists_eq_add_of_lt greater
        rw [next, Nat.add_assoc, Nat.add_sub_cancel_left, List.getElem?_cons_succ] at there
        exact absurd close (Nat.not_le.mpr (beyond mark (List.mem_of_getElem? there)))
  · rintro ⟨near, rfl⟩
    refine ⟨lines.toList.take i, start, lines.toList.drop (i + 1), ?_, near, fun mark member => ?_⟩
    · rw [← here, List.getElem_cons_drop, List.take_append_drop]
    · obtain ⟨k, there⟩ := List.mem_iff_getElem?.mp member
      rw [List.getElem?_drop, Array.getElem?_toList] at there
      exact single.beyond _ _ (Nat.le_add_right _ _) there

/-- Where the places increase, the line of an instruction is that of the last mark at or before it. -/
theorem lineAt_eq_some_iff {r : Routine} (increasing : Increasing r.lines.toList) {line : Nat}
    : r.lineAt pc = some line ↔ Marks r.lines.toList pc line := by
  by_cases empty : r.lines.size = 0
  · have none : r.lines = #[] := Array.eq_empty_of_size_eq_zero empty
    simp [lineAt, Marks, none]
  have narrowed : Narrowed r.lines pc 0 r.lines.size := by
    refine ⟨Nat.pos_of_ne_zero empty, by omega, .inl rfl, fun i mark far there => ?_⟩
    obtain ⟨inside, -⟩ := Array.getElem?_eq_some_iff.mp there
    omega
  have single := narrowed.search increasing (Nat.le_refl _)
  rw [lineAt]
  generalize lastMark r.lines pc r.lines.size 0 r.lines.size = i at single ⊢
  have inside := single.inside
  obtain ⟨⟨start, line'⟩, found⟩ : ∃ mark, r.lines[i]? = some mark :=
    ⟨_, Array.getElem?_eq_getElem (by omega)⟩
  rw [found, single.marks_iff found]
  by_cases near : start ≤ pc <;> simp [near]

end Routine

-----------------------------------------------------------------------------------------
-- Marks that are made
-----------------------------------------------------------------------------------------

namespace Draft

/-- The line was marked when the code had at most `pc` instructions, and each mark that was made later was
made when it had more.
-/
def LastMarked (entries : List Entry) (pc line : Nat) : Prop :=
  ∃ before after,
    entries = before ++ .line line :: after ∧ (instructions before).length ≤ pc
    ∧ ∀ before' line' after',
        after = before' ++ .line line' :: after'
        → pc < (instructions (before ++ .line line :: before')).length

section

variable {entries : List Entry} {pc line : Nat}

/-- Other entries are no marks. -/
theorem lastMarked_concat_of_ne {e : Entry} (other : ∀ line, e ≠ .line line)
    : LastMarked (entries ++ [e]) pc line ↔ LastMarked entries pc line := by
  constructor
  · rintro ⟨before, after, same, near, last⟩
    rcases concat_eq_append_cons.mp same with ⟨-, mark, -⟩ | ⟨others, rfl, rfl⟩
    · exact absurd mark (other line)
    · refine ⟨before, others, rfl, near, ?_⟩
      rintro before' line' after' rfl
      exact last before' line' (after' ++ [e]) (by simp)
  · rintro ⟨before, after, rfl, near, last⟩
    refine ⟨before, after ++ [e], by simp, near, fun before' line' after' same => ?_⟩
    rcases concat_eq_append_cons.mp same with ⟨-, mark, -⟩ | ⟨others, rfl, -⟩
    · exact absurd mark (other line')
    · exact last before' line' others rfl

/-- A new mark is the last one for what comes at the end of the code or behind it. -/
theorem lastMarked_concat {new : Nat}
    : LastMarked (entries ++ [.line new]) pc line
      ↔ if (instructions entries).length ≤ pc then line = new else LastMarked entries pc line := by
  constructor
  · rintro ⟨before, after, same, near, last⟩
    rcases concat_eq_append_cons.mp same with ⟨rfl, equal, rfl⟩ | ⟨others, rfl, rfl⟩
    · cases equal
      exact if_pos near ▸ rfl
    · rw [if_neg (Nat.not_le.mpr (last others new [] rfl))]
      refine ⟨before, others, rfl, near, ?_⟩
      rintro before' line' after' rfl
      exact last before' line' (after' ++ [.line new]) (by simp)
  · split
    · rename_i near
      rintro rfl
      exact ⟨entries, [], rfl, near, fun before' _ _ none => by cases before' <;> cases none⟩
    · rename_i far
      rintro ⟨before, after, rfl, near, last⟩
      refine ⟨before, after ++ [.line new], by simp, near, fun before' line' after' same => ?_⟩
      rcases concat_eq_append_cons.mp same with ⟨rfl, -, -⟩ | ⟨others, rfl, -⟩
      · exact Nat.lt_of_not_le far
      · exact last before' line' others rfl

/-- Unless every mark was made too late, one of them is the last. By induction on the entries. -/
theorem exists_lastMarked {before after : List Entry} (marked : entries = before ++ .line line :: after)
    (near : (instructions before).length ≤ pc)
    : ∃ line, LastMarked entries pc line := by
  induction entries using List.reverseRecOn generalizing after with
  | nil => cases before <;> cases marked
  | append_singleton entries e ih =>
      rcases concat_eq_append_cons.mp marked with ⟨rfl, rfl, -⟩ | ⟨others, earlier, -⟩
      · exact ⟨line, lastMarked_concat.mpr (by rw [if_pos near])⟩
      · obtain ⟨line', earlier⟩ := ih earlier
        by_cases mark : ∃ new, e = .line new
        · obtain ⟨new, rfl⟩ := mark
          by_cases reached : (instructions entries).length ≤ pc
          · exact ⟨new, lastMarked_concat.mpr (by rw [if_pos reached])⟩
          · exact ⟨line', lastMarked_concat.mpr (by rwa [if_neg reached])⟩
        · exact ⟨line', (lastMarked_concat_of_ne (not_exists.mp mark)).mpr earlier⟩

end

-----------------------------------------------------------------------------------------
-- The table of marks
-----------------------------------------------------------------------------------------

/-- Only a mark changes the table of marks. -/
theorem enter_lines (d : Draft) {e : Entry} (other : ∀ line, e ≠ .line line)
    : (d.enter e).2.lines = d.lines := by
  cases e with
  | line new => exact absurd rfl (other new)
  | place label => rw [enter_place]
  | name text => simp only [enter, Prod.map_snd, id, addName_snd]
  | _ => rfl

/-- The marks of a draft are in the order of its code. -/
structure InOrder (d : Draft) : Prop where
  increasing : Routine.Increasing d.lines.toList
  inside : ∀ mark ∈ d.lines.toList, mark.1 ≤ d.code.size

/-- A new mark at the end of the code is behind all others, because it replaces one that is there. -/
theorem InOrder.addLine {d : Draft} (ordered : d.InOrder) (new : Nat)
    : ∃ kept,
        (d.addLine new).lines.toList = kept ++ [(d.code.size, new)]
        ∧ (∀ mark ∈ kept, mark.1 < d.code.size) ∧ Routine.Increasing kept
        ∧ (d.lines.toList = kept ∨ ∃ old, d.lines.toList = kept ++ [(d.code.size, old)]) := by
  obtain ⟨increasing, inside⟩ := ordered
  rcases List.eq_nil_or_concat' d.lines.toList with none | ⟨kept, ⟨start, old⟩, last⟩
  · have empty : d.lines = #[] := by simpa using none
    exact ⟨[], by simp [Draft.addLine, empty], by simp, .nil, .inl none⟩
  · have back : d.lines.back? = some (start, old) := by
      rw [← Array.getLast?_toList, last, List.getLast?_concat]
    rw [last] at increasing inside
    have before := List.pairwise_append.mp increasing
    have front (mark) (member : mark ∈ kept) : mark.1 < start :=
      before.2.2 mark member _ (List.mem_singleton_self _)
    by_cases same : start = d.code.size
    · subst same
      exact ⟨kept, by simp [Draft.addLine, back, last], front, before.1, .inr ⟨old, last⟩⟩
    · have bound := inside (start, old) (List.mem_append_right _ (List.mem_singleton_self _))
      have less : start < d.code.size := Nat.lt_of_le_of_ne bound same
      refine ⟨kept ++ [(start, old)], by simp [Draft.addLine, back, same, last], ?_, increasing,
        .inl last⟩
      intro mark member
      rcases List.mem_append.mp member with earlier | here
      · exact Nat.lt_trans (front mark earlier) less
      · exact List.mem_singleton.mp here ▸ less

section

variable (name : String) (isProcedure : Bool)

/-- The table has the marks in order, and for each instruction the line that was marked last. By induction
on the entries.
-/
theorem lines_drafted (entries : List Entry)
    : (drafted name isProcedure entries).InOrder
      ∧ ∀ pc line,
          Routine.Marks (drafted name isProcedure entries).lines.toList pc line
          ↔ LastMarked entries pc line := by
  induction entries using List.reverseRecOn with
  | nil =>
      refine ⟨⟨.nil, by simp [drafted]⟩, fun pc line => ⟨?_, ?_⟩⟩
      · rintro ⟨before, _, _, none, _⟩
        cases before <;> cases none
      · rintro ⟨before, _, none, _⟩
        cases before <;> cases none
  | append_singleton entries e ih =>
      obtain ⟨ordered, marks⟩ := ih
      have code : (drafted name isProcedure entries).code.size = (instructions entries).length := by
        rw [← Array.length_toList, code_drafted]
      rw [drafted_concat]
      by_cases mark : ∃ new, e = .line new
      · obtain ⟨new, rfl⟩ := mark
        obtain ⟨kept, table, front, increasing, before⟩ := ordered.addLine new
        change InOrder ((drafted name isProcedure entries).addLine new)
          ∧ ∀ pc line, Routine.Marks ((drafted name isProcedure entries).addLine new).lines.toList pc line
              ↔ _
        refine ⟨⟨?_, ?_⟩, fun pc line => ?_⟩
        · rw [table]
          exact List.pairwise_append.mpr ⟨increasing, List.pairwise_singleton _ _,
            fun mark member next last => List.mem_singleton.mp last ▸ front mark member⟩
        · rw [table]
          intro mark member
          rcases List.mem_append.mp member with earlier | here
          · exact Nat.le_of_lt (front mark earlier)
          · exact List.mem_singleton.mp here ▸ Nat.le_refl _
        · rw [table, Routine.marks_concat, lastMarked_concat, code]
          split
          · rfl
          · rename_i far
            rw [← marks]
            rcases before with same | ⟨old, same⟩
            · rw [same]
            · rw [same, Routine.marks_concat, code, if_neg far]
      · have other := not_exists.mp mark
        have longer : (drafted name isProcedure entries).code.size
            ≤ ((drafted name isProcedure entries).enter e).2.code.size := by
          rw [← Array.length_toList, ← Array.length_toList, (enter_appends _ e).2.2, List.length_append]
          omega
        refine ⟨⟨?_, ?_⟩, fun pc line => ?_⟩
        · rw [enter_lines _ other]
          exact ordered.increasing
        · rw [enter_lines _ other]
          exact fun mark member => Nat.le_trans (ordered.inside mark member) longer
        · rw [enter_lines _ other, lastMarked_concat_of_ne other]
          exact marks pc line

/-- The line of an instruction is the one that was marked last when the code had no more instructions than
come before it, and there is none if no line had been marked by then. The places of the marks increase.
-/
theorem lineAt_eq_lastMarked (entries : List Entry) {r : Routine}
    (done : (drafted name isProcedure entries).finish = .ok r)
    : Routine.Increasing r.lines.toList
      ∧ ∀ pc,
          (∀ line, r.lineAt pc = some line ↔ LastMarked entries pc line)
          ∧ (r.lineAt pc = none
              ↔ ∀ before line after,
                  entries = before ++ .line line :: after → pc < (instructions before).length) := by
  obtain ⟨ordered, marks⟩ := lines_drafted name isProcedure entries
  obtain ⟨⟨-, -, -, -, -, lines⟩, -⟩ := finish_eq_ok done
  rw [← lines] at marks
  have increasing : Routine.Increasing r.lines.toList := lines ▸ ordered.increasing
  have found (pc line) : r.lineAt pc = some line ↔ LastMarked entries pc line :=
    (Routine.lineAt_eq_some_iff increasing).trans (marks pc line)
  refine ⟨increasing, fun pc => ⟨found pc, fun none before line after marked => ?_, fun late => ?_⟩⟩
  · by_contra reached
    obtain ⟨last, there⟩ := exists_lastMarked marked (Nat.le_of_not_lt reached)
    rw [← found, none] at there
    cases there
  · cases answer : r.lineAt pc with
    | none => rfl
    | some line =>
        obtain ⟨before, after, same, near, -⟩ := (found pc line).mp answer
        exact absurd near (Nat.not_le.mpr (late before line after same))

end

/-- Two instructions of line 10, which was line 3 at first, one of line 11, and a mark behind the code. -/
def markedEntries : List Entry :=
  [.line 3, .line 10, .instruction ⟨.push, 2, 1⟩, .literal .null, .instruction ⟨.push, 2, 2⟩, .line 11,
    .instruction ⟨.special, 0, 0⟩, .line 12]

/-- The first mark is replaced, and the last one counts from the end of the code on. -/
theorem lineAt_markedEntries
    : ∃ r,
        (drafted "MARKS" true markedEntries).finish = .ok r
        ∧ Routine.Increasing r.lines.toList
        ∧ (r.lineAt 1 = some 10 ∧ LastMarked markedEntries 1 10)
        ∧ (r.lineAt 2 = some 11 ∧ LastMarked markedEntries 2 11)
        ∧ (r.lineAt 7 = some 12 ∧ LastMarked markedEntries 7 12) := by
  have each : List.Forall₂ (fun i i' => resolve #[] i = .ok i')
      [⟨.push, 2, 1⟩, ⟨.push, 2, 2⟩, ⟨.special, 0, 0⟩]
      [⟨.push, 2, 1⟩, ⟨.push, 2, 2⟩, ⟨.special, 0, 0⟩] :=
    .cons rfl (.cons rfl (.cons rfl .nil))
  have done := finish_eq_ok_iff (d := drafted "MARKS" true markedEntries).mpr
    ⟨by decide, List.toArray _, each, rfl⟩
  obtain ⟨increasing, found⟩ := lineAt_eq_lastMarked "MARKS" true markedEntries done
  exact ⟨_, done, increasing, ⟨rfl, ((found 1).1 10).mp rfl⟩, ⟨rfl, ((found 2).1 11).mp rfl⟩,
    ⟨rfl, ((found 7).1 12).mp rfl⟩⟩

end Draft
end TaskMachine

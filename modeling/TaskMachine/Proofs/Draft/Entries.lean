import Mathlib.Data.List.Dedup
import Mathlib.Data.List.Induction
import Mathlib.Data.List.Nodup
import TaskMachine.Proofs.Draft

/-!
What a draft promises and its routine keeps. The numbers that are handed out for entries are 16 bits
wide and may wrap around in a draft; in a routine that is finished they denote what was entered. Each
jump to a label goes to where the label was placed last, before the jump or behind it.
-/

namespace TaskMachine

/-- A place in a list that ends with `last` is the end of it, or a place in what comes before. -/
theorem concat_eq_append_cons {α : Type} {xs before after : List α} {x last : α}
    : xs ++ [last] = before ++ x :: after
      ↔ (xs = before ∧ last = x ∧ after = [])
        ∨ ∃ others, xs = before ++ x :: others ∧ after = others ++ [last] := by
  constructor
  · intro same
    rcases List.eq_nil_or_concat' after with rfl | ⟨others, last', rfl⟩
    · obtain ⟨rfl, equal⟩ := List.append_inj' same rfl
      cases equal
      exact .inl ⟨rfl, rfl, rfl⟩
    · rw [← List.cons_append, ← List.append_assoc] at same
      obtain ⟨rfl, equal⟩ := List.append_inj' same rfl
      cases equal
      exact .inr ⟨others, rfl, rfl⟩
  · rintro (⟨rfl, rfl, rfl⟩ | ⟨others, rfl, rfl⟩)
    · rfl
    · simp

namespace Draft

/-- What a draft is told. -/
inductive Entry where
  | argument (name : String) (isOptional : Bool)
  | varargs (name : String)
  | localVariable (name : String)
  | literal (v : Value)
  | name (name : String)
  | instruction (i : Instruction)
  | jump (flags : UInt8) (label : UInt16)
  | label
  | place (label : UInt16)
  | file (fileName : String)
  | line (number : Nat)

/-- Enters something, with the number that is handed out for it, if any. A label that has not been
made is not placed.
-/
def enter (d : Draft) : Entry → Option UInt16 × Draft
  | .argument name isOptional => (d.addArgument name isOptional).map some id
  | .varargs name => (d.addVarargs name).map some id
  | .localVariable name => (d.addLocal name).map some id
  | .literal v => (d.addLiteral v).map some id
  | .name name => (d.addName name).map some id
  | .instruction i => (none, d.addInstruction i)
  | .jump flags label => (none, d.addJump flags label)
  | .label => d.makeLabel.map some id
  | .place label =>
    match d.placeLabel label with
    | .ok d' => (none, d')
    | .error _ => (none, d)
  | .file fileName => (none, d.setFileName fileName)
  | .line number => (none, d.addLine number)

/-- The draft after some entries. -/
def drafted (name : String) (isProcedure : Bool) (entries : List Entry) : Draft :=
  entries.foldl (fun d e => (d.enter e).2) { name, isProcedure }

-----------------------------------------------------------------------------------------
-- What the entries say
-----------------------------------------------------------------------------------------

namespace Entry

/-- The name of the local variable that is declared. -/
def localName? : Entry → Option String
  | .argument key _ | .varargs key | .localVariable key => some key
  | _ => none

def literal? : Entry → Option Value
  | .literal v => some v
  | _ => none

/-- The name that is entered, in upper case. -/
def key? : Entry → Option String
  | .name text => some text.toUpper
  | _ => none

/-- The instruction that is added. A jump to a label is symbolic. -/
def instruction? : Entry → Option Instruction
  | .instruction i => some i
  | .jump flags target => some ⟨.jump, flags ||| Jump.symbolic, target⟩
  | _ => none

def isLabel : Entry → Bool
  | .label => true
  | _ => false

/-- A number denotes in a routine what was entered. -/
def Denotes (r : Routine) (n : UInt16) : Entry → Prop
  | .argument key _ | .varargs key | .localVariable key => r.localNames[n.toNat]? = some key
  | .literal v => r.literals[n.toNat]? = some v
  | .name text => r.names[n.toNat]? = some text.toUpper
  | _ => True

end Entry

/-- The instructions among entries, in order. -/
abbrev instructions (entries : List Entry) : List Instruction :=
  entries.filterMap Entry.instruction?

/-- The label was placed last when the code had `pc` instructions. It had been made before, and has not
been placed again.
-/
def LastPlaced (entries : List Entry) (label : UInt16) (pc : Nat) : Prop :=
  ∃ before after,
    entries = before ++ .place label :: after ∧ label.toNat < before.countP Entry.isLabel
    ∧ .place label ∉ after ∧ pc = (instructions before).length

/-- What an instruction becomes in finished code of a size. A symbolic jump goes to the last place of
its label, with all flags but that one as they were, and any other instruction stays as it is.
-/
def Settled (entries : List Entry) (size : Nat) (i i' : Instruction) : Prop :=
  if i.isSymbolic then
    i'.opcode = .jump ∧ Jump.has i'.minor Jump.symbolic = false
    ∧ (∀ flag, flag &&& Jump.symbolic = 0 → Jump.has i'.minor flag = Jump.has i.minor flag)
    ∧ ∃ pc, LastPlaced entries i.operand pc ∧ i'.operand.toNat = pc ∧ pc ≤ size
  else i' = i

section

variable {entries : List Entry} {label : UInt16} {pc : Nat} {e : Entry}

theorem LastPlaced.made (placed : LastPlaced entries label pc)
    : label.toNat < entries.countP Entry.isLabel := by
  obtain ⟨before, after, rfl, made, -, -⟩ := placed
  rw [List.countP_append]
  omega

/-- A label is placed in the code or at its end. -/
theorem LastPlaced.le (placed : LastPlaced entries label pc) : pc ≤ (instructions entries).length := by
  obtain ⟨before, after, rfl, -, -, rfl⟩ := placed
  rw [instructions, instructions, List.filterMap_append, List.length_append]
  omega

/-- Another entry leaves the last place of a label where it is. -/
theorem lastPlaced_concat_of_ne (other : e ≠ .place label)
    : LastPlaced (entries ++ [e]) label pc ↔ LastPlaced entries label pc := by
  constructor
  · rintro ⟨before, after, same, made, free, here⟩
    rcases concat_eq_append_cons.mp same with ⟨-, last, -⟩ | ⟨others, rfl, rfl⟩
    · exact absurd last other
    · exact ⟨before, others, rfl, made, fun again => free (List.mem_append_left _ again), here⟩
  · rintro ⟨before, after, rfl, made, free, here⟩
    refine ⟨before, after ++ [e], by simp, made, fun again => ?_, here⟩
    rcases List.mem_append.mp again with again | last
    · exact free again
    · exact other (List.mem_singleton.mp last).symm

/-- A label that has been made is placed. -/
theorem lastPlaced_concat (made : label.toNat < entries.countP Entry.isLabel)
    : LastPlaced (entries ++ [.place label]) label pc ↔ pc = (instructions entries).length := by
  constructor
  · rintro ⟨before, after, same, -, free, here⟩
    rcases concat_eq_append_cons.mp same with ⟨rfl, -, -⟩ | ⟨others, -, rfl⟩
    · exact here
    · exact absurd (List.mem_append_right _ (List.mem_singleton_self _)) free
  · rintro rfl
    exact ⟨entries, [], rfl, made, List.not_mem_nil, rfl⟩

end

-----------------------------------------------------------------------------------------
-- What a draft holds
-----------------------------------------------------------------------------------------

/-- A label is placed, or nothing happens if it has not been made. -/
theorem enter_place (d : Draft) (label : UInt16)
    : d.enter (.place label)
      = (none, { d with labels := d.labels.setIfInBounds label.toNat (some d.code.size) }) := by
  by_cases made : label.toNat < d.labels.size
  · simp only [enter, placeLabel, if_pos made]
  · simp only [enter, placeLabel, if_neg made, Array.setIfInBounds_eq_of_size_le (Nat.not_lt.mp made)]

/-- A name is entered once. -/
theorem addName_snd (d : Draft) (text : String)
    : (d.addName text).2
      = { d with
          names := if text.toUpper ∈ d.names then d.names else d.names.push text.toUpper } := by
  simp only [addName]
  split
  · rename_i i found
    have known : text.toUpper ∈ d.names := by
      by_contra absent
      rw [Array.idxOf?_eq_none_iff.mpr absent] at found
      cases found
    rw [if_pos known]
  · rename_i absent
    rw [if_neg (Array.idxOf?_eq_none_iff.mp absent)]

/-- The number of a name is that of an entry with the name in upper case. -/
theorem addName_fst (d : Draft) (text : String)
    : ∃ i,
        (d.addName text).1 = UInt16.ofNat i
        ∧ (d.addName text).2.names[i]? = some text.toUpper := by
  simp only [addName]
  split
  · rename_i i found
    rw [Array.idxOf?_eq_map_finIdxOf?_val] at found
    obtain ⟨j, first, rfl⟩ := Option.map_eq_some_iff.mp found
    have there := (Array.finIdxOf?_eq_some_iff.mp first).1
    exact ⟨j, rfl, Array.getElem?_eq_some_iff.mpr ⟨j.isLt, there⟩⟩
  · exact ⟨d.names.size, rfl, Array.getElem?_push_size⟩

/-- An entry with a name that is not known yet appends it. -/
theorem enter_names (d : Draft) (e : Entry)
    : (d.enter e).2.names
      = match e.key? with
        | some key => if key ∈ d.names then d.names else d.names.push key
        | none => d.names := by
  cases e with
  | name text =>
      simp only [enter, Prod.map_snd, id, addName_snd]
      rfl
  | place label =>
      rw [enter_place]
      rfl
  | _ => rfl

/-- Labels are made without a place and are placed at the end of the code. -/
theorem enter_labels (d : Draft) (e : Entry)
    : (d.enter e).2.labels
      = match e with
        | .label => d.labels.push none
        | .place label => d.labels.setIfInBounds label.toNat (some d.code.size)
        | _ => d.labels := by
  cases e with
  | name text =>
      simp only [enter, Prod.map_snd, id, addName_snd]
  | place label => rw [enter_place]
  | _ => rfl

/-- The names of local variables, the literals and the code are appended to. -/
theorem enter_appends (d : Draft) (e : Entry)
    : (d.enter e).2.localNames.toList = d.localNames.toList ++ e.localName?.toList
      ∧ (d.enter e).2.literals.toList = d.literals.toList ++ e.literal?.toList
      ∧ (d.enter e).2.code.toList = d.code.toList ++ e.instruction?.toList := by
  cases e with
  | place => simp [enter_place, Entry.localName?, Entry.literal?, Entry.instruction?]
  | name => simp [enter, addName_snd, Entry.localName?, Entry.literal?, Entry.instruction?]
  | _ => simp [enter, Entry.localName?, Entry.literal?, Entry.instruction?, addArgument, addVarargs,
    addLocal, addLiteral, addInstruction, addJump, makeLabel, setFileName, addLine]

section

variable (name : String) (isProcedure : Bool)

theorem drafted_concat (entries : List Entry) (e : Entry)
    : drafted name isProcedure (entries ++ [e]) = ((drafted name isProcedure entries).enter e).2 := by
  rw [drafted, List.foldl_append]
  rfl

/-- A table to which each entry appends its part holds the parts of all entries, by induction on the
entries.
-/
theorem table_drafted {α : Type} (table : Draft → List α) {part : Entry → Option α}
    (start : table { name, isProcedure } = [])
    (step : ∀ d e, table (enter d e).2 = table d ++ (part e).toList) (entries : List Entry)
    : table (drafted name isProcedure entries) = entries.filterMap part := by
  induction entries using List.reverseRecOn with
  | nil => exact start
  | append_singleton entries e ih =>
      rw [drafted_concat, step, ih, List.filterMap_append]
      cases h : part e <;> simp [h]

private theorem localNames_drafted (entries : List Entry)
    : (drafted name isProcedure entries).localNames.toList = entries.filterMap Entry.localName? :=
  table_drafted name isProcedure (fun d => d.localNames.toList) rfl (fun d e => (enter_appends d e).1)
    entries

private theorem literals_drafted (entries : List Entry)
    : (drafted name isProcedure entries).literals.toList = entries.filterMap Entry.literal? :=
  table_drafted name isProcedure (fun d => d.literals.toList) rfl (fun d e => (enter_appends d e).2.1)
    entries

theorem code_drafted (entries : List Entry)
    : (drafted name isProcedure entries).code.toList = instructions entries :=
  table_drafted name isProcedure (fun d => d.code.toList) rfl (fun d e => (enter_appends d e).2.2)
    entries

/-- Each name is in the table of names once, by induction on the entries. -/
theorem names_drafted (entries : List Entry)
    : (drafted name isProcedure entries).names.toList.Nodup
      ∧ ∀ key,
          key ∈ (drafted name isProcedure entries).names ↔ key ∈ entries.filterMap Entry.key? := by
  induction entries using List.reverseRecOn with
  | nil => exact ⟨List.nodup_nil, by simp [drafted]⟩
  | append_singleton entries e ih =>
      obtain ⟨once, all⟩ := ih
      rw [drafted_concat, List.filterMap_append, enter_names]
      cases what : e.key? with
      | none =>
          rw [List.filterMap_cons_none what, List.filterMap_nil, List.append_nil]
          exact ⟨once, all⟩
      | some text =>
          rw [List.filterMap_cons_some what, List.filterMap_nil]
          dsimp only
          split
          · rename_i known
            refine ⟨once, fun key => ?_⟩
            rw [all, List.mem_append]
            refine ⟨.inl, fun given => given.elim id fun last => ?_⟩
            rw [List.mem_singleton.mp last]
            exact (all _).mp known
          · rename_i absent
            refine ⟨?_, fun key => ?_⟩
            · rw [Array.toList_push]
              exact once.append (List.nodup_singleton _)
                (List.disjoint_singleton.mpr fun there => absent (Array.mem_toList_iff.mp there))
            · rw [Array.mem_push, List.mem_append, all]
              exact or_congr_right List.mem_singleton.symm

/-- Names stay where they are, by induction on the later entries. -/
theorem names_prefix (entries later : List Entry)
    : (drafted name isProcedure entries).names.toList
      <+: (drafted name isProcedure (entries ++ later)).names.toList := by
  induction later using List.reverseRecOn with
  | nil => exact (List.append_nil entries).symm ▸ List.prefix_refl _
  | append_singleton later e ih =>
      rw [← List.append_assoc, drafted_concat, enter_names]
      refine ih.trans ?_
      split
      · split
        · exact List.prefix_refl _
        · rw [Array.toList_push]
          exact List.prefix_append _ _
      · exact List.prefix_refl _

/-- Each label has its last place, if it has been placed. By induction on the entries. -/
theorem labels_drafted (entries : List Entry)
    : (drafted name isProcedure entries).labels.size = entries.countP Entry.isLabel
      ∧ ∀ (label : UInt16) pc,
          (drafted name isProcedure entries).labels[label.toNat]?.join = some pc
          ↔ LastPlaced entries label pc := by
  induction entries using List.reverseRecOn with
  | nil =>
      refine ⟨rfl, fun label pc => ⟨fun found => ?_, fun placed => ?_⟩⟩
      · cases found
      · exact absurd placed.made (Nat.not_lt_zero _)
  | append_singleton entries e ih =>
      obtain ⟨size, places⟩ := ih
      have code : (drafted name isProcedure entries).code.size = (instructions entries).length := by
        rw [← Array.length_toList, code_drafted]
      rw [drafted_concat, List.countP_append, enter_labels]
      cases e with
      | place target =>
          refine ⟨by simp [size, Entry.isLabel], fun label pc => ?_⟩
          rw [Array.getElem?_setIfInBounds, size, code]
          by_cases same : target = label
          · subst same
            by_cases made : target.toNat < entries.countP Entry.isLabel
            · rw [if_pos rfl, if_pos made, lastPlaced_concat made]
              simp [eq_comm]
            · have still
                  : ¬ target.toNat < (entries ++ [Entry.place target]).countP Entry.isLabel := by
                simpa [Entry.isLabel] using made
              rw [if_pos rfl, if_neg made]
              refine ⟨fun found => ?_, fun placed => absurd placed.made still⟩
              cases found
          · have apart : ¬ target.toNat = label.toNat := fun equal => same (UInt16.toNat_inj.mp equal)
            rw [if_neg apart, places, lastPlaced_concat_of_ne (by simp [same])]
      | label =>
          refine ⟨by simp [size, Entry.isLabel], fun label pc => ?_⟩
          rw [lastPlaced_concat_of_ne (by simp), ← places, Array.getElem?_push]
          split
          · rename_i new
            -- the new label has not been placed
            rw [new, Array.getElem?_eq_none (Nat.le_refl _)]
            simp
          · rfl
      | _ => exact ⟨size, fun label pc => by rw [lastPlaced_concat_of_ne (by simp), ← places]⟩

end

-----------------------------------------------------------------------------------------
-- What a finished routine has
-----------------------------------------------------------------------------------------

/-- The number that is handed out for a part of a table denotes it in the whole table, if numbers tell
all its parts apart.
-/
theorem getElem_filterMap {α : Type} {part : Entry → Option α} {before after : List Entry} {e : Entry}
    {a : α} (what : part e = some a)
    (few : ((before ++ e :: after).filterMap part).length ≤ maxEntries)
    : ((before ++ e :: after).filterMap part)[(UInt16.ofNat (before.filterMap part).length).toNat]?
      = some a := by
  rw [List.filterMap_append, List.filterMap_cons_some what, List.length_append, List.length_cons,
    maxEntries] at few
  rw [UInt16.toNat_ofNat', Nat.mod_eq_of_lt (by omega), List.filterMap_append,
    List.filterMap_cons_some what, List.getElem?_append_right (Nat.le_refl _), Nat.sub_self]
  rfl

/-- Clearing the flag of unresolved jumps leaves other flags as they are. -/
theorem and_not_symbolic {flag : UInt8} (other : flag &&& Jump.symbolic = 0)
    : ~~~Jump.symbolic &&& flag = flag := by
  have each : ∀ n : Fin 256,
      UInt8.ofNat n &&& Jump.symbolic = 0 → ~~~Jump.symbolic &&& UInt8.ofNat n = UInt8.ofNat n := by
    decide +kernel
  have all := each ⟨flag.toNat, flag.toNat_lt⟩
  simp only [UInt8.ofNat_toNat] at all
  exact all other

/-- A resolved instruction is settled. -/
theorem settled_of_resolve {labels : Array (Option Nat)} {entries : List Entry} {size : Nat}
    (places : ∀ (label : UInt16) pc, labels[label.toNat]?.join = some pc → LastPlaced entries label pc)
    (length : (instructions entries).length = size) (short : size ≤ maxCode) {i i' : Instruction}
    (resolved : resolve labels i = .ok i')
    : Settled entries size i i' := by
  have absolute := isSymbolic_of_resolve resolved
  have opcode := opcode_of_resolve resolved
  rw [Settled]
  split
  · rename_i symbolic
    have jump : i.opcode = .jump := by
      simp only [Instruction.isSymbolic, Bool.and_eq_true, beq_iff_eq] at symbolic
      exact symbolic.1
    simp only [resolve, symbolic, if_true] at resolved
    split at resolved
    · rename_i pc placed
      cases resolved
      have last := places _ _ placed
      have inside := length ▸ last.le
      rw [maxCode] at short
      refine ⟨jump, ?_, fun flag other => ?_, pc, last, ?_, inside⟩
      · simpa [Instruction.isSymbolic, jump] using absolute
      · simp only [Jump.has, UInt8.and_assoc, and_not_symbolic other]
      · rw [UInt16.toNat_ofNat', Nat.mod_eq_of_lt (by omega)]
    · cases resolved
  · rename_i plain
    simp only [resolve, plain] at resolved
    cases resolved
    rfl

/-- A label is resolved unless it was never placed. -/
theorem exists_resolve {labels : Array (Option Nat)} {i : Instruction}
    : (∃ i', resolve labels i = .ok i')
      ↔ (i.isSymbolic = true → ∃ pc, labels[i.operand.toNat]?.join = some pc) := by
  rw [resolve]
  split
  · rename_i symbolic
    split
    · rename_i pc placed
      exact iff_of_true ⟨_, rfl⟩ fun _ => ⟨pc, placed⟩
    · rename_i absent
      refine iff_of_false (fun given => ?_) fun found => ?_
      · obtain ⟨i', resolved⟩ := given
        cases resolved
      · obtain ⟨pc, placed⟩ := found symbolic
        rw [placed] at absent
        cases absent
  · rename_i plain
    exact iff_of_true ⟨i, rfl⟩ fun symbolic => absurd symbolic plain

/-- A draft is finished, or its tables are too long, or an instruction is not resolved. -/
theorem exists_finish {d : Draft}
    : (∃ r, d.finish = .ok r)
      ↔ (d.code.size ≤ maxCode ∧ d.localNames.size ≤ maxEntries ∧ d.literals.size ≤ maxEntries
          ∧ d.names.size ≤ maxEntries ∧ d.labels.size ≤ maxEntries)
        ∧ ∀ i ∈ d.code.toList, ∃ i', resolve d.labels i = .ok i' := by
  rw [← exists_related]
  constructor
  · rintro ⟨r, done⟩
    obtain ⟨few, code, each, -⟩ := finish_eq_ok_iff.mp done
    exact ⟨few, code.toList, each⟩
  · rintro ⟨few, code, each⟩
    exact ⟨_, finish_eq_ok_iff.mpr ⟨few, code.toArray, each, rfl⟩⟩

section

variable (name : String) (isProcedure : Bool)

/-- The table of names is as long as there are different names. -/
theorem size_names_drafted (entries : List Entry)
    : (drafted name isProcedure entries).names.size
      = (entries.filterMap Entry.key?).dedup.length := by
  obtain ⟨once, all⟩ := names_drafted name isProcedure entries
  refine List.Perm.length_eq ((List.perm_ext_iff_of_nodup once (List.nodup_dedup _)).mpr fun key => ?_)
  rw [List.mem_dedup, ← all key, Array.mem_toList_iff]

/-- A draft can be finished if its tables are not too long and the labels of all symbolic jumps have
been placed.
-/
theorem exists_finish_drafted (entries : List Entry)
    : (∃ r, (drafted name isProcedure entries).finish = .ok r)
      ↔ ((instructions entries).length ≤ 65535
          ∧ (entries.filterMap Entry.localName?).length ≤ 65536
          ∧ (entries.filterMap Entry.literal?).length ≤ 65536
          ∧ (entries.filterMap Entry.key?).dedup.length ≤ 65536
          ∧ entries.countP Entry.isLabel ≤ 65536)
        ∧ ∀ i ∈ instructions entries, i.isSymbolic = true → ∃ pc, LastPlaced entries i.operand pc := by
  obtain ⟨labels, places⟩ := labels_drafted name isProcedure entries
  have names := size_names_drafted name isProcedure entries
  rw [exists_finish, labels, names, ← Array.length_toList, ← Array.length_toList,
    ← Array.length_toList, code_drafted, localNames_drafted, literals_drafted]
  simp only [exists_resolve, places, maxCode, maxEntries]

/-- Numbers denote in a finished routine what was entered for them. -/
theorem denotes_of_finish {name : String} {isProcedure : Bool} {entries : List Entry} {r : Routine}
    (done : (drafted name isProcedure entries).finish = .ok r)
    {before after : List Entry} {e : Entry} {n : UInt16} (split : entries = before ++ e :: after)
    (answer : ((drafted name isProcedure before).enter e).1 = some n)
    : e.Denotes r n := by
  subst split
  obtain ⟨⟨-, locals, literals, names, -⟩, code, -, rfl⟩ := finish_eq_ok_iff.mp done
  rw [← Array.length_toList, localNames_drafted] at locals
  rw [← Array.length_toList, literals_drafted] at literals
  have local_ {key : String} (what : e.localName? = some key)
      (number : n = UInt16.ofNat (drafted name isProcedure before).localNames.size)
      : (drafted name isProcedure (before ++ e :: after)).localNames[n.toNat]? = some key := by
    rw [number, ← Array.length_toList, localNames_drafted, ← Array.getElem?_toList,
      localNames_drafted]
    exact getElem_filterMap what locals
  cases e with
  | argument key isOptional | varargs key | localVariable key =>
      cases answer
      exact local_ rfl rfl
  | literal v =>
      cases answer
      change (drafted name isProcedure (before ++ .literal v :: after)).literals[_]? = some v
      rw [← Array.length_toList, literals_drafted, ← Array.getElem?_toList, literals_drafted]
      exact getElem_filterMap rfl literals
  | name text =>
      have given : ((drafted name isProcedure before).addName text).1 = n := Option.some.inj answer
      obtain ⟨i, number, there⟩ := addName_fst (drafted name isProcedure before) text
      have later := names_prefix name isProcedure (before ++ [.name text]) after
      rw [List.append_assoc, List.singleton_append, drafted_concat] at later
      change (drafted name isProcedure (before ++ .name text :: after)).names[n.toNat]?
        = some text.toUpper
      rw [← Array.getElem?_toList] at there ⊢
      have inside := (List.getElem?_eq_some_iff.mp there).1
      have small := Nat.lt_of_lt_of_le inside (Nat.le_trans later.length_le names)
      rw [maxEntries] at small
      obtain ⟨rest, same⟩ := later
      rw [← given, number, UInt16.toNat_ofNat', Nat.mod_eq_of_lt (by omega), ← same]
      exact (List.getElem?_append_left inside).trans there
  | _ => trivial

end

/-- A draft fails to be finished just if it has more than 65535 instructions, more than 65536 local
variables, literals, different names or labels, or a symbolic jump to a label that was never placed.
In a routine that it is finished to, all numbers that were handed out denote what was entered for them,
names are in upper case and without duplicates, and the code has the instructions in order, with
each symbolic jump going to the last place of its label.
-/
theorem finish_keeps_promises (name : String) (isProcedure : Bool) (entries : List Entry)
    : ((∃ fault, (drafted name isProcedure entries).finish = .error fault)
        ↔ 65535 < (instructions entries).length
          ∨ 65536 < (entries.filterMap Entry.localName?).length
          ∨ 65536 < (entries.filterMap Entry.literal?).length
          ∨ 65536 < (entries.filterMap Entry.key?).dedup.length
          ∨ 65536 < entries.countP Entry.isLabel
          ∨ ∃ i ∈ instructions entries, i.isSymbolic = true ∧ ∀ pc, ¬ LastPlaced entries i.operand pc)
      ∧ ∀ r,
          (drafted name isProcedure entries).finish = .ok r
          → (∀ before e after n,
                entries = before ++ e :: after
                → ((drafted name isProcedure before).enter e).1 = some n
                → e.Denotes r n)
            ∧ r.names.toList.Nodup
            ∧ (∀ key, key ∈ r.names ↔ key ∈ entries.filterMap Entry.key?)
            ∧ List.Forall₂ (Settled entries r.code.size) (instructions entries) r.code.toList := by
  constructor
  · have finished := exists_finish_drafted name isProcedure entries
    have failed
        : (∃ fault, (drafted name isProcedure entries).finish = .error fault)
          ↔ ¬ ∃ r, (drafted name isProcedure entries).finish = .ok r := by
      cases (drafted name isProcedure entries).finish <;> simp
    rw [failed, finished]
    constructor
    · intro unfit
      by_contra within
      simp only [not_or, Nat.not_lt, not_exists, not_and, not_forall, not_not] at within
      obtain ⟨code, locals, literals, names, labels, placed⟩ := within
      exact unfit ⟨⟨code, locals, literals, names, labels⟩, placed⟩
    · rintro unfit ⟨⟨code, locals, literals, names, labels⟩, placed⟩
      rcases unfit with long | long | long | long | long | ⟨i, member, symbolic, never⟩
      · omega
      · omega
      · omega
      · omega
      · omega
      · obtain ⟨pc, last⟩ := placed i member symbolic
        exact never pc last
  · intro r done
    refine ⟨fun before e after n => denotes_of_finish done, ?_⟩
    obtain ⟨once, all⟩ := names_drafted name isProcedure entries
    obtain ⟨-, places⟩ := labels_drafted name isProcedure entries
    obtain ⟨⟨short, -⟩, code, each, rfl⟩ := finish_eq_ok_iff.mp done
    refine ⟨once, all, ?_⟩
    have size := each.length_eq
    rw [code_drafted] at each size
    rw [← Array.length_toList, code_drafted, size, Array.length_toList] at short
    exact each.imp fun i i' resolved =>
      settled_of_resolve (fun label pc => (places label pc).mp) size short resolved

/-- A loop with a jump forward and one backward, whose end was first placed too early. -/
def loopEntries : List Entry :=
  [.label, .label, .place 0, .literal .null, .place 1, .jump Jump.ifTrue 1, .literal (.integer 7),
    .jump Jump.ifFalse 0, .place 1, .instruction ⟨.special, 0, 0⟩]

/-- The draft after these entries. -/
def loopDraft : Draft where
  name := "LOOP"
  isProcedure := true
  code :=
    #[⟨.jump, Jump.ifTrue ||| Jump.symbolic, 1⟩, ⟨.jump, Jump.ifFalse ||| Jump.symbolic, 0⟩,
      ⟨.special, 0, 0⟩]
  literals := #[.null, .integer 7]
  labels := #[some 0, some 2]

private theorem drafted_loop : drafted "LOOP" true loopEntries = loopDraft :=
  rfl

/-- With a name behind them, the jumps go to where the labels were placed last, and the numbers denote
the literals and the name.
-/
theorem loop_keeps_promises
    : ∃ r, (drafted "LOOP" true (loopEntries ++ [.name "Fuel"])).finish = .ok r
        ∧ r.code = #[⟨.jump, Jump.ifTrue, 2⟩, ⟨.jump, Jump.ifFalse, 0⟩, ⟨.special, 0, 0⟩]
        ∧ (Entry.literal (.integer 7)).Denotes r 1 ∧ (Entry.name "Fuel").Denotes r 0
        ∧ List.Forall₂ (Settled (loopEntries ++ [.name "Fuel"]) 3)
            (instructions (loopEntries ++ [.name "Fuel"])) r.code.toList := by
  have named : loopDraft.enter (.name "Fuel")
      = (some 0, { loopDraft with names := #["Fuel".toUpper] }) := by
    simp [enter, addName, loopDraft]
  have all : drafted "LOOP" true (loopEntries ++ [.name "Fuel"])
      = { loopDraft with names := #["Fuel".toUpper] } := by
    rw [drafted_concat, drafted_loop, named]
  have each : List.Forall₂ (fun i i' => resolve loopDraft.labels i = .ok i') loopDraft.code.toList
      [⟨.jump, Jump.ifTrue, 2⟩, ⟨.jump, Jump.ifFalse, 0⟩, ⟨.special, 0, 0⟩] :=
    .cons rfl (.cons rfl (.cons rfl .nil))
  have done := finish_eq_ok_iff (d := { loopDraft with names := #["Fuel".toUpper] }).mpr
    ⟨by decide, List.toArray _, each, rfl⟩
  rw [← all] at done
  obtain ⟨-, promises⟩ := finish_keeps_promises "LOOP" true (loopEntries ++ [.name "Fuel"])
  obtain ⟨denotes, -, -, settled⟩ := promises _ done
  refine ⟨_, done, rfl, ?_, ?_, settled⟩
  · exact denotes (loopEntries.take 6) (.literal (.integer 7)) (loopEntries.drop 7 ++ [.name "Fuel"]) 1
      rfl rfl
  · exact denotes loopEntries (.name "Fuel") [] 0 rfl (by rw [drafted_loop, named])

end Draft
end TaskMachine

import Mathlib.Data.Finset.Card
import NewtonScript.Proofs.Scope.Declared

/-!
# Sessions with a store

However a store was used since it was empty, the answers it gives are decided
by what it was asked.  A name is the first of those that were interned and that
it equals up to case, a shared map is the first of those that were requested
with equal slots, and a definition is the last one.
-/

namespace NewtonScript

/-! ## Hashes -/

namespace Symbol

theorem lowerByte_ofNat {n : Nat} (small : n < 256) :
    lowerByte (.ofNat n) = .ofNat (if 65 ≤ n ∧ n ≤ 90 then n + 32 else n) := by
  have value : (UInt8.ofNat n).toNat = n := Nat.mod_eq_of_lt small
  have upper : (65 ≤ UInt8.ofNat n ∧ UInt8.ofNat n ≤ 90) ↔ 65 ≤ n ∧ n ≤ 90 := by
    simp only [UInt8.le_iff_toNat_le, value, UInt8.reduceToNat]
  simp only [lowerByte, upper]
  split
  · exact (UInt8.ofNat_add n 32).symm
  · rfl

/-- The letters of ASCII are single bytes, and no other character has bytes
that are letters. -/
theorem utf8EncodeChar_toLower (c : Char) :
    String.utf8EncodeChar c.toLower = (String.utf8EncodeChar c).map lowerByte := by
  have lower : c.toLower.val.toNat = _ := toNat_toLower c
  simp only [String.utf8EncodeChar, lower, Char.toNat]
  generalize c.val.toNat = n
  by_cases ascii : n ≤ 127
  · have still : (if 65 ≤ n ∧ n ≤ 90 then n + 32 else n) ≤ 127 := by split <;> omega
    rw [if_pos still, if_pos ascii, List.map_singleton, lowerByte_ofNat (by omega)]
  · have high : ∀ byte, 128 ≤ byte → byte < 256 → lowerByte (.ofNat byte) = .ofNat byte := by
      intro byte low small
      rw [lowerByte_ofNat small, if_neg (by omega)]
    rw [if_neg (by omega : ¬ (65 ≤ n ∧ n ≤ 90)), if_neg ascii]
    split
    · simp (disch := omega) only [List.map_cons, List.map_nil, high]
    · split <;> simp (disch := omega) only [List.map_cons, List.map_nil, high]

/-- The bytes that are hashed are those of the folded spelling. -/
theorem hashed_eq (name : Symbol) : name.hashed = name.folded.toUTF8.data.toList ++ [0xFF] := by
  have bytes (chars : List Char) : (String.ofList chars).toUTF8.data.toList =
      chars.flatMap String.utf8EncodeChar := by
    rw [String.toUTF8_eq_toByteArray, String.toByteArray_ofList]
    simp [List.utf8Encode]
  rw [hashed, name.folded_eq, foldCase, bytes, ← String.ofList_toList (s := name.spelling), bytes]
  simp [List.map_flatMap, List.flatMap_map, utf8EncodeChar_toLower]

/-- The bytes that are hashed tell names apart exactly as comparing them does. -/
theorem hashed_eq_iff {first second : Symbol} : first.hashed = second.hashed ↔ first == second := by
  rw [hashed_eq, hashed_eq, List.append_left_inj, Array.toList_inj, ← ByteArray.ext_iff, beq_iff]
  exact String.toByteArray_inj

/-- Rows of names that are equal have equal hashes. -/
theorem Hasher.hashAll_eq (hasher : Hasher) {names others : List Symbol} (equal : names == others) :
    hasher.hashAll names = hasher.hashAll others := by
  have writes (names : List Symbol) (state : hasher.State) : names.foldl hasher.write state =
      (names.map hashed).foldl (fun state bytes => bytes.foldl hasher.writeByte state) state := by
    rw [List.foldl_map]
    rfl
  have same : names.map hashed = others.map hashed := by
    have bytes (names : List Symbol) : names.map hashed =
        (names.map folded).map fun folded => folded.toUTF8.data.toList ++ [0xFF] := by
      simp [hashed_eq]
    rw [bytes, bytes, list_beq_iff.mp equal]
  rw [hashAll, hashAll, writes, writes, same, length_eq_of_beq equal]

end Symbol

namespace Store

/-- What a store can be asked for. -/
inductive Request where
  | intern (spelling : String)
  | sharedMap (slots : List Symbol)
  | defineConstant (name : Symbol) (value : Value)
  | defineGlobal (spelling : String) (value : Value)
  | makeString (text : String)
  | makeArray (className : Symbol) (elements : List Value)
  | makeFrame (slots : List Symbol) (values : List Value)
  | makeFrameOver (map : FrameMap) (values : List Value)
  | makeBlock (block : CodeBlock)

namespace Request

/-- The store behind a request. -/
def run (store : Store) : Request → Store
  | intern spelling => (store.intern spelling).2
  | sharedMap slots => (store.sharedMap slots).2
  | defineConstant name value => store.defineConstant name value
  | defineGlobal spelling value => store.defineGlobal spelling value
  | makeString text => (store.makeString text).2
  | makeArray className elements => (store.makeArray className elements).2
  | makeFrame slots values => (store.makeFrame slots values).2
  | makeFrameOver map values => (store.makeFrameOver map values).2
  | makeBlock block => (store.makeBlock block).2

/-- The spelling that is interned. -/
def spelling? : Request → Option String
  | intern spelling => some spelling
  | defineGlobal spelling _ => some spelling
  | _ => none

/-- The slots of the map that is requested. -/
def slots? : Request → Option (List Symbol)
  | sharedMap slots => some slots
  | _ => none

/-- The constant that is defined. -/
def constant? : Request → Option (Symbol × Value)
  | defineConstant name value => some (name, value)
  | _ => none

/-- The variable that is defined. -/
def global? : Request → Option (Symbol × Value)
  | defineGlobal spelling value => some (.ofString spelling, value)
  | _ => none

end Request

/-- The store after a session. -/
def after (requests : List Request) : Store :=
  requests.foldl Request.run .empty

section

variable {α β : Type} {asked : Request → Option α} {wanted : α → Bool}

/-- What no request takes away stays. -/
theorem kept_foldl (known : Store → Option α) {new : Request → Store → Option α}
    (step : ∀ request store, known (request.run store) = (known store).or (new request store))
    {store : Store} {value : α} (found : known store = some value) (requests : List Request) :
    known (requests.foldl Request.run store) = some value := by
  induction requests generalizing store with
  | nil => exact found
  | cons request rest ih => exact ih (by rw [step, found, Option.some_or])

/-- What is kept from the first request for it. -/
theorem first_after (known : Store → Option α) (start : known .empty = none)
    (step : ∀ request store, known (request.run store) =
      (known store).or ((asked request).filter wanted)) (requests : List Request) :
    known (after requests) = (requests.filterMap asked).find? wanted := by
  induction requests using List.reverseRecOn with
  | nil => exact start
  | append_singleton requests request ih =>
    rw [after, List.foldl_concat, step, ← after, ih, List.filterMap_append]
    cases found : asked request <;> simp [found, Option.filter]

/-- What is replaced with every request for it. -/
theorem last_after (known : Store → Option β) {view : α → β} (start : known .empty = none)
    (step : ∀ request store, known (request.run store) =
      (((asked request).filter wanted).map view).or (known store)) (requests : List Request) :
    known (after requests) = ((requests.filterMap asked).reverse.find? wanted).map view := by
  induction requests using List.reverseRecOn with
  | nil => exact start
  | append_singleton requests request ih =>
    rw [after, List.foldl_concat, step, ← after, ih, List.filterMap_append, List.reverse_append,
      List.find?_append, Option.map_or]
    cases found : asked request <;> simp [found, Option.filter]

end

/-! ## Names -/

theorem intern_keeps (spelling : String) (store : Store) :
    (store.intern spelling).2.maps = store.maps ∧
      (store.intern spelling).2.constants = store.constants ∧
      (store.intern spelling).2.globals = store.globals := by
  rw [intern]
  cases store.symbols.find? (.ofString spelling) <;> exact ⟨rfl, rfl, rfl⟩

theorem symbols_run (request : Request) (store : Store) :
    (request.run store).symbols =
      request.spelling?.elim store.symbols fun spelling => (store.intern spelling).2.symbols := by
  cases request with
  | sharedMap slots =>
    rw [Request.run, sharedMap]
    split <;> rfl
  | _ => rfl

theorem find?_intern (spelling : String) (store : Store) (name : Symbol) :
    (store.intern spelling).2.symbols.find? name =
      (store.symbols.find? name).or (if Symbol.ofString spelling == name then
        some (store.symbols.fresh (.ofString spelling)) else none) := by
  have same (equal : Symbol.ofString spelling == name) :
      store.symbols.find? (.ofString spelling) = store.symbols.find? name := by
    rw [Interned.find?, Symbol.beq_iff.mp equal]
    rfl
  rw [intern]
  cases found : store.symbols.find? (.ofString spelling) with
  | some known =>
    by_cases equal : Symbol.ofString spelling == name
    · rw [← same equal, found, Option.some_or]
    · rw [if_neg equal, Option.or_none]
  | none =>
    change Trie.get? (Trie.insert _ _ _) _ = _
    rw [Trie.get?_insert]
    by_cases equal : Symbol.ofString spelling == name
    · rw [if_pos equal, ← same equal, found, if_pos (by rw [Symbol.beq_iff.mp equal]),
        Option.none_or]
    · have other := fun rows => equal (Symbol.beq_iff.mpr (String.toList_inj.mp rows).symm)
      rw [if_neg equal, if_neg other, Option.or_none]
      rfl

theorem intern_fst (spelling : String) (store : Store) :
    (store.intern spelling).1 = (store.symbols.find? (.ofString spelling)).getD
      (store.symbols.fresh (.ofString spelling)) := by
  rw [intern]
  cases store.symbols.find? (.ofString spelling) <;> rfl

theorem find?_names_run (name : Symbol) (request : Request) (store : Store) :
    (request.run store).symbols.find? name =
      (store.symbols.find? name).or (request.spelling?.bind fun spelling =>
        if Symbol.ofString spelling == name then some (store.symbols.fresh (.ofString spelling))
        else none) := by
  rw [symbols_run]
  cases request.spelling? with
  | none => exact Option.or_none.symm
  | some spelling => exact find?_intern spelling store name

/-- A name that is interned is known from then on. -/
theorem find?_intern_self (spelling : String) (store : Store) :
    (store.intern spelling).2.symbols.find? (.ofString spelling) =
      some (store.intern spelling).1 := by
  rw [find?_intern, if_pos BEq.rfl, intern_fst]
  cases store.symbols.find? (.ofString spelling) <;> rfl

/-- A name is known by the spelling that was interned first. -/
theorem spelling_after (requests : List Request) (name : Symbol) :
    ((after requests).symbols.find? name).map Symbol.spelling =
      (requests.filterMap Request.spelling?).find? (Symbol.ofString · == name) := by
  refine first_after (fun store => (store.symbols.find? name).map Symbol.spelling) ?_ ?_ requests
  · exact congrArg (Option.map _) (Trie.get?_empty _)
  · intro request store
    rw [find?_names_run, Option.map_or]
    cases request.spelling? with
    | none => rfl
    | some spelling =>
      rw [Option.bind_some, Option.filter_some]
      split <;> rfl

/-- Names that are distinct up to case are counted. -/
theorem symbolCount_after (requests : List Request) :
    (after requests).symbolCount =
      ((requests.filterMap Request.spelling?).map foldCase).toFinset.card := by
  induction requests using List.reverseRecOn with
  | nil => rfl
  | append_singleton requests request ih =>
    rw [symbolCount, after, List.foldl_concat, ← after, symbols_run, List.filterMap_append,
      List.map_append, List.toFinset_append]
    cases spelled : request.spelling? with
    | none => simpa [spelled, symbolCount] using ih
    | some spelling =>
      have known := congrArg Option.isSome (spelling_after requests (.ofString spelling))
      rw [Bool.eq_iff_iff, List.find?_isSome] at known
      simp only [Option.elim_some, List.filterMap_cons, spelled, List.filterMap_nil,
        List.map_cons, List.map_nil, List.toFinset_cons, List.toFinset_nil, insert_empty_eq,
        Finset.union_singleton]
      rw [intern]
      cases found : (after requests).symbols.find? (.ofString spelling) with
      | some name =>
        obtain ⟨other, member, equal⟩ := known.mp (found ▸ rfl)
        rw [Finset.insert_eq_of_mem, ← ih]
        · rfl
        · exact List.mem_toFinset.mpr (List.mem_map.mpr ⟨other, member, Symbol.beq_iff.mp equal⟩)
      | none =>
        rw [Finset.card_insert_of_notMem, ← ih]
        · rfl
        · intro member
          obtain ⟨other, member, equal⟩ := List.mem_map.mp (List.mem_toFinset.mp member)
          have isSome := known.mpr ⟨other, member, Symbol.beq_iff.mpr equal⟩
          simp [found] at isSome

/-! ## Maps -/

theorem find?_congr {slots others : List Symbol} (equal : slots == others) (maps : List FrameMap) :
    maps.find? (·.slots == slots) = maps.find? (·.slots == others) := by
  congr 1
  funext known
  rw [Bool.eq_iff_iff, Symbol.list_beq_iff, Symbol.list_beq_iff, Symbol.list_beq_iff.mp equal]

theorem find?_sharedMap (slots others : List Symbol) (store : Store) :
    (store.sharedMap slots).2.maps.find? (·.slots == others) =
      (store.maps.find? (·.slots == others)).or
        (if slots == others then some ⟨store.nextObject, slots, true⟩ else none) := by
  rw [sharedMap]
  cases found : store.maps.find? (·.slots == slots) with
  | some known =>
    by_cases equal : slots == others
    · rw [← find?_congr equal, found, Option.some_or]
    · rw [if_neg equal, Option.or_none]
  | none =>
    rw [List.find?_cons]
    by_cases equal : slots == others
    · rw [← find?_congr equal store.maps, found]
      simp only [equal]
      rfl
    · rw [if_neg equal, Option.or_none]
      simp only [equal]
      rfl

theorem maps_run (request : Request) (store : Store) :
    (request.run store).maps =
      request.slots?.elim store.maps fun slots => (store.sharedMap slots).2.maps := by
  cases request with
  | intern spelling => exact (store.intern_keeps spelling).1
  | defineGlobal spelling value => exact (store.intern_keeps spelling).1
  | _ => rfl

theorem find?_maps_run (slots : List Symbol) (request : Request) (store : Store) :
    (request.run store).maps.find? (·.slots == slots) =
      (store.maps.find? (·.slots == slots)).or (request.slots?.bind fun others =>
        if others == slots then some ⟨store.nextObject, others, true⟩ else none) := by
  rw [maps_run]
  cases request.slots? with
  | none => exact Option.or_none.symm
  | some others => exact find?_sharedMap others slots store

/-- A shared map has the slots of the first request. -/
theorem slots_after (requests : List Request) (slots : List Symbol) :
    ((after requests).maps.find? (·.slots == slots)).map FrameMap.slots =
      (requests.filterMap Request.slots?).find? (· == slots) := by
  refine first_after (fun store => (store.maps.find? (·.slots == slots)).map FrameMap.slots) rfl ?_
    requests
  intro request store
  rw [find?_maps_run, Option.map_or]
  cases request.slots? with
  | none => rfl
  | some others =>
    rw [Option.bind_some, Option.filter_some]
    split <;> rfl

/-! ## Definitions -/

theorem constant?_after (requests : List Request) (name : Symbol) :
    (after requests).constant? name =
      ((requests.filterMap Request.constant?).reverse.find? (·.1 == name)).map Prod.snd := by
  refine last_after (·.constants.get? name) rfl ?_ requests
  intro request store
  cases request with
  | intern spelling => exact congrArg (·.get? name) (store.intern_keeps spelling).2.1
  | defineGlobal spelling value => exact congrArg (·.get? name) (store.intern_keeps spelling).2.1
  | sharedMap slots =>
    exact congrArg (·.get? name) (store.harmless_sharedMap (fun _ => True) slots).extends_.constants
  | defineConstant bound value =>
    change (store.constants.insert bound value).get? name = _
    rw [Table.get?_insert_eq, Request.constant?, Option.filter_some]
    split <;> rfl
  | _ => rfl

theorem global?_after (requests : List Request) (name : Symbol) :
    (after requests).globals.get? name =
      ((requests.filterMap Request.global?).reverse.find? (·.1 == name)).map Prod.snd := by
  refine last_after (·.globals.get? name) rfl ?_ requests
  intro request store
  cases request with
  | intern spelling => exact congrArg (·.get? name) (store.intern_keeps spelling).2.2
  | sharedMap slots =>
    rw [Request.run, sharedMap]
    split <;> rfl
  | defineGlobal spelling value =>
    change ((store.intern spelling).2.globals.insert (store.intern spelling).1 value).get? name = _
    rw [Table.get?_insert_eq, (store.intern_keeps spelling).2.2,
      BEq.congr_left (store.intern_eq spelling), Request.global?, Option.filter_some]
    split <;> rfl
  | _ => rfl

/-! ## Sessions -/

theorem coherent_after (requests : List Request) : (after requests).Coherent fun _ => False := by
  induction requests using List.reverseRecOn with
  | nil => exact ⟨by simp [HasMap, after, empty], by simp [HasMap, after, empty]⟩
  | append_singleton requests request ih =>
    rw [after, List.foldl_concat]
    cases request with
    | sharedMap slots => exact (harmless_sharedMap _ slots _).coherent ih
    | intern spelling => exact (harmless_intern _ spelling _).coherent ih
    | defineGlobal spelling value =>
      exact ((harmless_intern _ spelling _).coherent ih).of_same_maps rfl (Nat.le_refl _)
    | defineConstant name value => exact ih.of_same_maps rfl (Nat.le_refl _)
    | makeFrame slots values => exact ih.of_same_maps rfl (Nat.le_add_right _ 2)
    | _ => exact ih.of_same_maps rfl (Nat.le_succ _)

theorem intern_after (requests : List Request) (spelling : String) :
    (requests.filterMap Request.spelling? ++ [spelling]).find? (foldCase · == foldCase spelling) =
      some ((after requests).intern spelling).1.spelling := by
  have first := spelling_after requests (.ofString spelling)
  change _ = List.find? (foldCase · == foldCase spelling) _ at first
  rw [List.find?_append, ← first, intern]
  cases (after requests).symbols.find? (.ofString spelling) with
  | some known => rfl
  | none => simp [Interned.fresh, Symbol.storedAt, Symbol.ofString]

theorem find?_names_between (earlier between : List Request) (spelling : String) :
    (after (earlier ++ .intern spelling :: between)).symbols.find? (.ofString spelling) =
      some ((after earlier).intern spelling).1 := by
  rw [after, List.foldl_append, ← after]
  exact kept_foldl (·.symbols.find? (.ofString spelling)) (find?_names_run (.ofString spelling))
    (find?_intern_self spelling _) between

theorem intern_between (earlier between : List Request) {first second : String}
    (same : foldCase first = foldCase second) :
    ((after (earlier ++ .intern first :: between)).intern second).1 =
      ((after earlier).intern first).1 := by
  have one : (after (earlier ++ .intern first :: between)).symbols.find? (.ofString second) = _ :=
    (congrArg (Trie.get? _ ∘ String.toList) same).symm.trans (find?_names_between earlier between first)
  rw [intern_fst, one, Option.getD_some]

/-- Names are in one storage exactly when they are the same up to case. -/
theorem sameStorage_iff (earlier between : List Request) (first second : String) :
    ((after earlier).intern first).1.sameStorage
        ((after (earlier ++ .intern first :: between)).intern second).1 ↔
      foldCase first = foldCase second := by
  have known := find?_names_between earlier between first
  obtain ⟨number, -, stored⟩ := Interned.stored _ _ _ known
  rw [Symbol.sameStorage, stored, Option.isSome_some, Bool.true_and, beq_iff_eq, ← stored]
  constructor
  · intro same
    -- Both names are known in the end, where no two names are in one storage.
    have still := find?_intern second (after (earlier ++ .intern first :: between)) (.ofString first)
    rw [known, Option.some_or] at still
    exact String.toList_inj.mp (Interned.distinct _ _ _ _ _ still (find?_intern_self second _) same)
  · intro same
    rw [intern_between earlier between same]

theorem sharedMap_fst (slots : List Symbol) (store : Store) :
    (store.sharedMap slots).1 =
      (store.maps.find? (·.slots == slots)).getD ⟨store.nextObject, slots, true⟩ := by
  rw [sharedMap]
  cases store.maps.find? (·.slots == slots) <;> rfl

theorem find?_maps_between (earlier between : List Request) (slots : List Symbol) :
    (after (earlier ++ .sharedMap slots :: between)).maps.find? (·.slots == slots) =
      some ((after earlier).sharedMap slots).1 := by
  rw [after, List.foldl_append, ← after]
  refine kept_foldl (·.maps.find? (·.slots == slots)) (find?_maps_run slots) ?_ between
  rw [Request.run, find?_sharedMap, if_pos BEq.rfl, sharedMap_fst]
  cases (after earlier).maps.find? (·.slots == slots) <;> rfl

theorem sharedMap_between (earlier between : List Request) {first second : List Symbol}
    (same : first == second) :
    ((after (earlier ++ .sharedMap first :: between)).sharedMap second).1 =
      ((after earlier).sharedMap first).1 := by
  rw [sharedMap_fst, ← find?_congr same, find?_maps_between, Option.getD_some]

/-- What a store answers in a session is what it was first asked for, and what
it holds is what was last defined, up to case.  Names and slots have the hashes
of their equals, so all tables can be searched through hashes. -/
theorem answers_after (earlier between : List Request) :
    let store := after earlier
    let later (request : Request) := after (earlier ++ request :: between)
    (∀ first second, (store.intern first).1.sameStorage
        ((later (.intern first)).intern second).1 ↔ foldCase first = foldCase second) ∧
      (∀ spelling, (earlier.filterMap Request.spelling? ++ [spelling]).find?
        (foldCase · == foldCase spelling) = some (store.intern spelling).1.spelling) ∧
      (∀ spelling, ((later (.intern spelling)).intern spelling).1 = (store.intern spelling).1) ∧
      store.symbolCount = ((earlier.filterMap Request.spelling?).map foldCase).toFinset.card ∧
      (∀ first second, (store.sharedMap first).1.id =
        ((later (.sharedMap first)).sharedMap second).1.id ↔
          first.map Symbol.folded = second.map Symbol.folded) ∧
      (∀ slots, (earlier.filterMap Request.slots? ++ [slots]).find? (· == slots) =
        some (store.sharedMap slots).1.slots) ∧
      (∀ slots, ((later (.sharedMap slots)).sharedMap slots).1 = (store.sharedMap slots).1) ∧
      (∀ name, store.constant? name =
        ((earlier.filterMap Request.constant?).reverse.find? (·.1 == name)).map Prod.snd) ∧
      (∀ name, store.globals.get? name =
        ((earlier.filterMap Request.global?).reverse.find? (·.1 == name)).map Prod.snd) ∧
      (∀ name other : Symbol, name == other ↔ foldCase name.spelling = foldCase other.spelling) ∧
      (∀ name other : Symbol, name.hashed = other.hashed ↔ name == other) ∧
      (∀ (hasher : Symbol.Hasher) (name other : Symbol), name == other →
        hasher.hash name = hasher.hash other) ∧
      (∀ (hasher : Symbol.Hasher) (slots others : List Symbol), slots == others →
        hasher.hashAll slots = hasher.hashAll others) := by
  intro store later
  refine ⟨sameStorage_iff earlier between, intern_after earlier, fun spelling => intern_between earlier between rfl,
    symbolCount_after earlier, ?_, ?_, fun slots => sharedMap_between earlier between BEq.rfl,
    constant?_after earlier, global?_after earlier, ?_, fun _ _ => Symbol.hashed_eq_iff, ?_,
    fun hasher _ _ => hasher.hashAll_eq⟩
  · intro first second
    rw [← Symbol.list_beq_iff]
    constructor
    · intro same
      have grown := (later (.sharedMap first)).harmless_sharedMap (fun _ => False) second
      -- Both maps are in the last store, where a number belongs to one map.
      have one := (grown.coherent (coherent_after _)).id_injective _ _
        (.inl (grown.extends_.maps (List.mem_of_find?_eq_some
          (find?_maps_between earlier between first)))) (.inl (sharedMap_mem ..)) same
      have slots := sharedMap_slots first store
      rw [one, Symbol.list_beq_iff] at slots
      exact Symbol.list_beq_iff.mpr
        (slots.symm.trans (Symbol.list_beq_iff.mp (sharedMap_slots second _)))
    · intro same
      rw [sharedMap_between earlier between same]
  · intro slots
    rw [List.find?_append, ← slots_after, sharedMap_fst]
    cases (after earlier).maps.find? (·.slots == slots) with
    | some known => rfl
    | none => simp
  · intro name other
    rw [Symbol.beq_iff, name.folded_eq, other.folded_eq]
  · intro hasher name other equal
    rw [Symbol.Hasher.hash, Symbol.Hasher.write, Symbol.hashed_eq_iff.mpr equal]
    rfl

end Store

end NewtonScript

/-!
# Tries

A trie binds rows of characters to values.  It branches by the characters, so
that a row is found in as many steps as it has characters, however many rows
are bound.
-/

namespace NewtonScript

universe u

/-- The value of the empty row, and what is bound behind each character. -/
inductive Trie (ν : Type u) where
  | node (value : Option ν) (branches : List (Char × Trie ν))

namespace Trie

variable {ν : Type u}

def empty : Trie ν := node none []

/-- What is bound behind a character. -/
def behind (branches : List (Char × Trie ν)) (c : Char) : Trie ν :=
  (branches.lookup c).getD empty

/-- Change what is bound behind a character. -/
def replace (c : Char) (trie : Trie ν) : List (Char × Trie ν) → List (Char × Trie ν)
  | [] => [(c, trie)]
  | branch :: rest => if branch.1 == c then (c, trie) :: rest else branch :: replace c trie rest

/-- What a word is bound to. -/
def get? : Trie ν → List Char → Option ν
  | node value _, [] => value
  | node _ branches, c :: rest => (behind branches c).get? rest

/-- Bind a word. -/
def insert (value : ν) : List Char → Trie ν → Trie ν
  | [], node _ branches => node (some value) branches
  | c :: rest, node own branches =>
      node own (replace c (insert value rest (behind branches c)) branches)

theorem behind_cons (branch : Char × Trie ν) (rest : List (Char × Trie ν)) (c : Char) :
    behind (branch :: rest) c = if c = branch.1 then branch.2 else behind rest c := by
  obtain ⟨d, trie⟩ := branch
  rw [behind, List.lookup_cons]
  by_cases same : c = d
  · simp [same]
  · rw [beq_eq_false_iff_ne.mpr same, if_neg same, behind]

theorem behind_replace (c d : Char) (trie : Trie ν) (branches : List (Char × Trie ν)) :
    behind (replace c trie branches) d = if d = c then trie else behind branches d := by
  induction branches with
  | nil => rw [replace, behind_cons]
  | cons branch rest ih =>
      rw [replace, behind_cons]
      by_cases here : branch.1 = c
      · rw [if_pos (beq_iff_eq.mpr here), behind_cons]
        by_cases same : d = c <;> simp [same, here]
      · rw [if_neg (by simpa using here), behind_cons, ih]
        by_cases same : d = branch.1
        · rw [if_pos same, if_neg (same ▸ here), if_pos same]
        · rw [if_neg same, if_neg same]

@[simp]
theorem get?_empty (key : List Char) : (empty : Trie ν).get? key = none := by
  induction key with
  | nil => rfl
  | cons c rest ih => exact ih

theorem get?_insert (value : ν) (key other : List Char) (trie : Trie ν) :
    (trie.insert value key).get? other = if other = key then some value else trie.get? other := by
  induction key generalizing other trie with
  | nil =>
      cases trie
      cases other <;> simp [insert, get?]
  | cons c rest ih =>
      cases trie
      cases other with
      | nil => simp [insert, get?]
      | cons d others =>
          rw [insert, get?, behind_replace]
          by_cases same : d = c
          · simp [same, ih, get?]
          · simp [same, get?]

end Trie

end NewtonScript

/-!
# Ascending lists

Sets of registers are kept as ascending lists without repeats, so that a
set has one form and its elements come in the order in which they are
visited. A relation between registers is a list of rows, ascending by their
register, each row a set.
-/

namespace SsaCompiler

namespace Ascending

/-- Put a number into a set. -/
def insert (a : Nat) : List Nat → List Nat
  | [] => [a]
  | b :: rest =>
    if a < b then a :: b :: rest
    else if a = b then b :: rest
    else b :: insert a rest

/-- **The set of the numbers in a list.** -/
def ofList (l : List Nat) : List Nat :=
  l.foldr insert []

/-- Merge a number, and what `rest` adds after it, into a set. -/
def mergeFrom (a : Nat) (rest : List Nat → List Nat) : List Nat → List Nat
  | [] => a :: rest []
  | b :: set =>
    if a < b then a :: rest (b :: set)
    else if a = b then b :: rest set
    else b :: mergeFrom a rest set

/-- **The union of two sets**, in one pass over both. -/
def union : List Nat → List Nat → List Nat
  | [], set => set
  | a :: rest, set => mergeFrom a (union rest) set

/-! ## Members and order -/

/-- The members after an insertion: the new number and the old members. -/
@[simp] theorem mem_insert {a x : Nat} {l : List Nat} : x ∈ insert a l ↔ x = a ∨ x ∈ l := by
  induction l with
  | nil => simp [insert]
  | cons b rest ih =>
    simp only [insert]
    split
    · simp
    · split
      · simp_all
      · simp [ih, or_left_comm]

/-- A list and its set have the same members. -/
@[simp] theorem mem_ofList {x : Nat} {l : List Nat} : x ∈ ofList l ↔ x ∈ l := by
  induction l with
  | nil => simp [ofList]
  | cons a rest ih => simpa [ofList] using or_congr_right ih

/-- The members after a merge, if `rest` adds the same members to every
set. -/
theorem mem_mergeFrom {a x : Nat} {rest : List Nat → List Nat} {l : List Nat}
    (h : ∀ m, x ∈ rest m ↔ x ∈ rest [] ∨ x ∈ m) :
    x ∈ mergeFrom a rest l ↔ x = a ∨ x ∈ rest [] ∨ x ∈ l := by
  induction l with
  | nil => simp [mergeFrom]
  | cons b set ih =>
    simp only [mergeFrom]
    split
    · rw [List.mem_cons, h]
    · split
      · subst a
        rw [List.mem_cons, h]
        grind
      · rw [List.mem_cons, ih]
        grind

/-- The members of a union. -/
@[simp] theorem mem_union {x : Nat} {l m : List Nat} : x ∈ union l m ↔ x ∈ l ∨ x ∈ m := by
  induction l generalizing m with
  | nil => simp [union]
  | cons a rest ih =>
    rw [union, mem_mergeFrom (fun m => by simp [ih])]
    simp [ih, or_assoc]

/-- An insertion keeps a list ascending. -/
theorem pairwise_insert {a : Nat} {l : List Nat} (h : l.Pairwise (· < ·)) :
    (insert a l).Pairwise (· < ·) := by
  induction l with
  | nil => simp [insert]
  | cons b rest ih =>
    simp only [insert]
    split
    · rw [List.pairwise_cons] at h ⊢
      refine ⟨fun x hx => ?_, List.pairwise_cons.2 h⟩
      rcases List.mem_cons.1 hx with rfl | hx
      · assumption
      · have := h.1 x hx
        omega
    · split
      · exact h
      · rw [List.pairwise_cons] at h ⊢
        refine ⟨fun x hx => ?_, ih h.2⟩
        rcases mem_insert.1 hx with rfl | hx
        · omega
        · exact h.1 x hx

/-- The set of a list is ascending. -/
theorem pairwise_ofList (l : List Nat) : (ofList l).Pairwise (· < ·) := by
  induction l with
  | nil => simp [ofList]
  | cons a rest ih => exact pairwise_insert ih

end Ascending

/-- **A relation on numbers**, row by row. -/
abbrev Relation := List (Nat × List Nat)

namespace Relation

/-- What a number is related to. -/
def row (r : Relation) (a : Nat) : List Nat :=
  (r.lookup a).getD []

/-- The numbers that have a row. -/
def domain (r : Relation) : List Nat :=
  r.map (·.1)

/-- Change the row of a number, which is made if there is none. -/
def update (a : Nat) (f : List Nat → List Nat) : Relation → Relation
  | [] => [(a, f [])]
  | (b, row) :: rest =>
    if a < b then (a, f []) :: (b, row) :: rest
    else if a = b then (b, f row) :: rest
    else (b, row) :: update a f rest

/-- Give a number a row. -/
def touch (r : Relation) (a : Nat) : Relation :=
  r.update a id

/-- Relate a number to the others of a set. A number is never related to
itself, and with no others nothing is related. -/
def relate (r : Relation) (set : List Nat) (a : Nat) : Relation :=
  match set.filter (· ≠ a) with
  | [] => r
  | others => r.update a (Ascending.union others)

/-- **Relate two different numbers** to each other. -/
def join (r : Relation) (a b : Nat) : Relation :=
  (r.relate [b] a).relate [a] b

/-- **Relate a number and the members of a set** to each other. -/
def joinTo (r : Relation) (a : Nat) (set : List Nat) : Relation :=
  set.foldl (·.relate [a] ·) (r.relate set a)

/-- **Relate all members of a set** to each other. -/
def joinAll (r : Relation) (set : List Nat) : Relation :=
  set.foldl (·.relate set ·) r

end Relation

end SsaCompiler

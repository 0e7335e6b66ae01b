/-!
# Merging orders

Several sequences are merged into one that keeps the order of each. The next member is always the
first head, in the order of the sequences, that stands in no sequence behind its head; the members
are told apart by a key. There is no merged sequence when every head stands behind another one.
-/
namespace ContentSchema.Linearization

variable {α κ : Type} [DecidableEq κ]

/-- Whether no member of the sequences behind a head has the key of `c`. -/
def isFree (key : α → κ) (sequences : List (List α)) (c : α) : Bool :=
  sequences.all fun s => s.tail.all fun x => key x ≠ key c

/-- A sequence without its head, if that has the key of `c`. -/
def dropHead (key : α → κ) (c : α) : List α → List α
  | [] => []
  | x :: xs => if key x = key c then xs else x :: xs

/-- The sequences without their heads with the key of `c`. -/
def dropHeads (key : α → κ) (c : α) (sequences : List (List α)) : List (List α) :=
  sequences.map (dropHead key c)

/-- The first head that is free. -/
def next? (key : α → κ) (sequences : List (List α)) : Option α :=
  (sequences.filterMap List.head?).find? (isFree key sequences)

theorem length_dropHead_le (key : α → κ) (c : α) (s : List α) :
    (dropHead key c s).length ≤ s.length := by
  cases s with
  | nil => exact Nat.le_refl _
  | cons x xs => simp only [dropHead]; split <;> simp

theorem length_flatten_dropHeads_le (key : α → κ) (c : α) (sequences : List (List α)) :
    (dropHeads key c sequences).flatten.length ≤ sequences.flatten.length := by
  induction sequences with
  | nil => exact Nat.le_refl _
  | cons s ss ih =>
    have hs := length_dropHead_le key c s
    simp only [dropHeads, List.map_cons, List.flatten_cons, List.length_append] at ih ⊢
    omega

/-- Taking a head away shortens the sequences. -/
theorem length_flatten_dropHeads_lt (key : α → κ) {sequences : List (List α)} {c : α}
    (h : c ∈ sequences.filterMap List.head?) :
    (dropHeads key c sequences).flatten.length < sequences.flatten.length := by
  induction sequences with
  | nil => simp at h
  | cons s ss ih =>
    have hle := length_flatten_dropHeads_le key c ss
    have hs := length_dropHead_le key c s
    simp only [dropHeads, List.map_cons, List.flatten_cons, List.length_append] at ih hle ⊢
    cases s with
    | nil => simpa [dropHead] using ih (by simpa using h)
    | cons x xs =>
      simp only [List.filterMap_cons, List.head?_cons, List.mem_cons] at h
      rcases h with rfl | h
      · have : (dropHead key c (c :: xs)).length = xs.length := by simp [dropHead]
        simp only [List.length_cons] at this ⊢
        omega
      · have := ih h
        omega

/-- The merged sequence. -/
def merge (key : α → κ) (sequences : List (List α)) : Option (List α) :=
  if sequences.all List.isEmpty then some []
  else match _h : next? key sequences with
    | none => none
    | some c => (merge key (dropHeads key c sequences)).map (c :: ·)
termination_by sequences.flatten.length
decreasing_by exact length_flatten_dropHeads_lt key (List.mem_of_find?_eq_some _h)

/-- The members of the sequences one after the other behind those of `found`, each only where its
key stands first. -/
def appendNew (key : α → κ) (found : List α) (sequences : List (List α)) : List α :=
  sequences.flatten.foldl
    (fun seen x => if seen.any (key · = key x) then seen else seen ++ [x]) found

/-- The order of a member that follows the given `orders` of its parents, which have that of
`parents` among themselves: the merged one, or without it the orders one after the other. -/
def linearize (key : α → κ) (self : α) (parents : List α) (orders : List (List α)) : List α :=
  match merge key (orders ++ [parents]) with
  | some merged => self :: merged
  | none => appendNew key [self] orders

end ContentSchema.Linearization

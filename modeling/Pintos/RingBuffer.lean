/-!
# Ring buffers

A circular buffer of `N` cells with two positions: elements are written at `head` and
read at `tail`.  One cell stays free, so that equal positions mean an empty buffer and a
full one has `head` just behind `tail`.

`contents` lists the elements from the oldest to the newest.  Writing appends one
(`contents_push`), reading takes the first (`contents_pop`).
-/

namespace RingBuffer
variable {α : Type} {N head tail : Nat}

/-- The position after `pos`. -/
def next (N pos : Nat) : Nat :=
  (pos + 1) % N

/-- How many elements there are. -/
def size (N head tail : Nat) : Nat :=
  (head + N - tail) % N

/-- The elements, the oldest first. -/
def contents (N : Nat) (buf : Nat → α) (head tail : Nat) : List α :=
  (List.range (size N head tail)).map fun i => buf ((tail + i) % N)

theorem next_lt (hhead : head < N) : next N head < N :=
  Nat.mod_lt _ (Nat.zero_lt_of_lt hhead)

theorem next_eq (hhead : head < N) : next N head = if head + 1 = N then 0 else head + 1 := by
  unfold next
  split
  · next h => rw [h, Nat.mod_self]
  · exact Nat.mod_eq_of_lt (by omega)

theorem size_lt (htail : tail < N) : size N head tail < N :=
  Nat.mod_lt _ (Nat.zero_lt_of_lt htail)

theorem size_eq (hhead : head < N) (htail : tail < N) :
    size N head tail = if tail ≤ head then head - tail else head + N - tail := by
  unfold size
  split
  · have hsum : head + N - tail = head - tail + N := by omega
    rw [hsum, Nat.add_mod_right]
    exact Nat.mod_eq_of_lt (by omega)
  · exact Nat.mod_eq_of_lt (by omega)

@[simp] theorem length_contents (buf : Nat → α) :
    (contents N buf head tail).length = size N head tail := by
  simp [contents]

theorem contents_empty (buf : Nat → α) (hpos : head < N) : contents N buf head head = [] := by
  simp [contents, size_eq hpos hpos]

/-- The `i`-th element is not at `head`. -/
theorem add_mod_ne_head (hhead : head < N) (htail : tail < N) {i : Nat}
    (hi : i < size N head tail) : (tail + i) % N ≠ head := by
  rw [size_eq hhead htail] at hi
  by_cases hwrap : tail + i < N
  · rw [Nat.mod_eq_of_lt hwrap]
    split at hi <;> omega
  · rw [Nat.mod_eq_sub_mod (by omega), Nat.mod_eq_of_lt (by split at hi <;> omega)]
    split at hi <;> omega

/-- **Writing appends an element.** -/
theorem contents_push {buf buf' : Nat → α} {x : α} (hhead : head < N) (htail : tail < N)
    (hfull : next N head ≠ tail) (hself : buf' head = x) (hother : ∀ i, i ≠ head → buf' i = buf i) :
    contents N buf' (next N head) tail = contents N buf head tail ++ [x] := by
  have hsize : size N (next N head) tail = size N head tail + 1 := by
    have hnext := next_eq hhead
    rw [size_eq (next_lt hhead) htail, size_eq hhead htail]
    split at hnext <;> split <;> split <;> omega
  have hlast : (tail + size N head tail) % N = head := by
    rw [size_eq hhead htail]
    split
    · rw [Nat.add_sub_cancel' (by assumption), Nat.mod_eq_of_lt hhead]
    · rw [Nat.add_sub_cancel' (by omega), Nat.add_mod_right, Nat.mod_eq_of_lt hhead]
  unfold contents
  rw [hsize, List.range_succ, List.map_append]
  congr 1
  · refine List.map_congr_left fun i hi => hother _ ?_
    exact add_mod_ne_head hhead htail (List.mem_range.mp hi)
  · rw [List.map_singleton, hlast, hself]

/-- **Reading takes the oldest element.** -/
theorem contents_pop (buf : Nat → α) (hhead : head < N) (htail : tail < N) (hempty : head ≠ tail) :
    contents N buf head tail = buf tail :: contents N buf head (next N tail) := by
  have hsize : size N head tail = size N head (next N tail) + 1 := by
    have hnext := next_eq htail
    rw [size_eq hhead (next_lt htail), size_eq hhead htail]
    split at hnext <;> split <;> split <;> omega
  unfold contents
  rw [hsize, List.range_succ_eq_map, List.map_cons, Nat.add_zero, Nat.mod_eq_of_lt htail,
    List.map_map]
  congr 1
  refine List.map_congr_left fun i _ => ?_
  show buf ((tail + (i + 1)) % N) = buf (((tail + 1) % N + i) % N)
  rw [Nat.mod_add_mod]
  congr 2
  omega

end RingBuffer

/-
# Quicksort against patterns

Sorting in place by parting a range around a pivot. Short ranges are sorted by
insertion. The pivot is a median of three items, or of three such medians in a long
range. A range that looks sorted is tried by insertion first, and one that looks
reversed is turned around before. Items equal to the one before the range are parted
off at once. After an uneven parting some items are moved at random, and after too
many of them the range is sorted by means of a heap, so that no input is slow.

Items that precede each other neither way may change places. Which of them do is
fixed by the input, for the random moves depend on the length of the range alone.
-/

namespace TreeCode.Quicksort

variable {α : Type} (lt : α → α → Bool)

/-- Whether the item at a place precedes the one at another. -/
def precedes (xs : Array α) (i j : Nat) : Bool :=
  match xs[i]?, xs[j]? with
  | some x, some y => lt x y
  | _, _ => false

/-- Move the item at a place to the left, past all that it precedes, but not beyond
`first`. -/
def moveLeft (first : Nat) : Nat → Array α → Array α
  | 0, xs => xs
  | i + 1, xs =>
    if first ≤ i && precedes lt xs (i + 1) i then
      moveLeft first i (xs.swapIfInBounds (i + 1) i)
    else xs

/-- Move the item before place `i` to the right, past all that precede it, by no more
than `steps`. -/
def moveRight : Nat → Nat → Array α → Array α
  | 0, _, xs => xs
  | steps + 1, i, xs =>
    if precedes lt xs i (i - 1) then moveRight steps (i + 1) (xs.swapIfInBounds i (i - 1))
    else xs

/-- Sort the range from `first` to before `last` by insertion. -/
def insertionSort (first last : Nat) (xs : Array α) : Array α :=
  (List.range' (first + 1) (last - first - 1)).foldl (fun xs i => moveLeft lt first i xs) xs

/-- Let the item at `root` sink in the heap of the given size at `first`. -/
def siftDown (first size : Nat) : Nat → Nat → Array α → Array α
  | 0, _, xs => xs
  | fuel + 1, root, xs =>
    let left := 2 * root + 1
    if size ≤ left then xs
    else
      let child :=
        if left + 1 < size && precedes lt xs (first + left) (first + left + 1) then left + 1
        else left
      if precedes lt xs (first + root) (first + child) then
        siftDown first size fuel child (xs.swapIfInBounds (first + root) (first + child))
      else xs

/-- Sort the range from `first` to before `last` by means of a heap. -/
def heapSort (first last : Nat) (xs : Array α) : Array α :=
  let size := last - first
  let heap := (List.range ((size - 1) / 2 + 1)).foldr
    (fun root xs => siftDown lt first size size root xs) xs
  (List.range size).foldr
    (fun top xs => siftDown lt first top size 0 (xs.swapIfInBounds first (first + top))) heap

/-- The first place from `i` on, within the next `steps`, that a test fails for. -/
def firstFailing (test : Nat → Bool) : Nat → Nat → Nat
  | 0, i => i
  | steps + 1, i => if test i then firstFailing test steps (i + 1) else i

/-- The first place from `j` down, within the next `steps`, that a test fails for. -/
def lastFailing (test : Nat → Bool) : Nat → Nat → Nat
  | 0, j => j
  | steps + 1, j => if test j then lastFailing test steps (j - 1) else j

/-- A range after parting: its items, the place that parts it, and whether it was
parted before. -/
structure Parted (α : Type) where
  items : Array α
  place : Nat
  already : Bool

/-- Exchange items from both ends of the places `i` to `j` until those on the left
pass the test `small` and those on the right do not. -/
def exchange (small : Array α → Nat → Bool) : Nat → Bool → Nat → Nat → Array α → Parted α
  | 0, moved, _, j, xs => ⟨xs, j, !moved⟩
  | fuel + 1, moved, i, j, xs =>
    let i := firstFailing (small xs) (j + 1 - i) i
    let j := lastFailing (fun k => !small xs k) (j + 1 - i) j
    if j < i then ⟨xs, j, !moved⟩
    else exchange small fuel true (i + 1) (j - 1) (xs.swapIfInBounds i j)

/-- Part a range around a pivot: what precedes it, the pivot, and the rest. -/
def part (first last pivot : Nat) (xs : Array α) : Parted α :=
  let p := exchange (fun xs k => precedes lt xs k first) (last - first) false (first + 1) (last - 1)
    (xs.swapIfInBounds first pivot)
  { p with items := p.items.swapIfInBounds p.place first }

/-- Part a range in which nothing precedes the pivot: what is equal to the pivot, and
the rest. The place is the first one of the rest. -/
def partEqual (first last pivot : Nat) (xs : Array α) : Parted α :=
  let p := exchange (fun xs k => !precedes lt xs first k) (last - first) false (first + 1)
    (last - 1) (xs.swapIfInBounds first pivot)
  { p with place := p.place + 1 }

/-- Exchange a few pairs of neighbours in a range that is nearly sorted, and tell
whether it is sorted then. Not more than `tries` pairs are exchanged, and none in a
range that is not long. -/
def settle (first last : Nat) : Nat → Nat → Array α → Bool × Array α
  | 0, _, xs => (false, xs)
  | tries + 1, i, xs =>
    let i := firstFailing (fun k => !precedes lt xs k (k - 1)) (last - i) i
    if i = last then (true, xs)
    else if last - first < 50 then (false, xs)
    else
      let xs := xs.swapIfInBounds i (i - 1)
      let xs := if 2 ≤ i - first then moveLeft lt 0 (i - 1) xs else xs
      let xs := if 2 ≤ last - i then moveRight lt (last - i - 1) (i + 1) xs else xs
      settle first last tries i xs

/-- The next number of a sequence without an apparent pattern. -/
def scrambled (r : UInt64) : UInt64 :=
  let r := r ^^^ (r <<< 13)
  let r := r ^^^ (r >>> 7)
  r ^^^ (r <<< 17)

/-- The number of binary digits of a number. -/
def bitSize (n : Nat) : Nat :=
  if n = 0 then 0 else n.log2 + 1

/-- Exchange three items in the middle of a range with others of it. -/
def scatter (first last : Nat) (xs : Array α) : Array α :=
  let size := last - first
  let middle := first + size / 4 * 2
  let move (state : UInt64 × Array α) (i : Nat) : UInt64 × Array α :=
    let r := scrambled state.1
    let other := r.toNat % Nat.pow 2 (bitSize size)
    let other := if size ≤ other then other - size else other
    (r, state.2.swapIfInBounds (middle - 2 + i) (first + other))
  ([0, 1, 2].foldl move (UInt64.ofNat size, xs)).2

/-- Places in order of their items, and the number of exchanges that it took. -/
structure Ranked where
  low : Nat
  high : Nat
  exchanges : Nat

/-- Rank two places. -/
def rank (xs : Array α) (i j exchanges : Nat) : Ranked :=
  if precedes lt xs j i then ⟨j, i, exchanges + 1⟩ else ⟨i, j, exchanges⟩

/-- The place of the median among three, and the number of exchanges so far. -/
def median (xs : Array α) (i j k exchanges : Nat) : Nat × Nat :=
  let r := rank lt xs i j exchanges
  let s := rank lt xs r.high k r.exchanges
  let t := rank lt xs r.low s.low s.exchanges
  (t.high, t.exchanges)

/-- What the search for a pivot says about a range. -/
inductive Impression where
  | increasing
  | decreasing
  | mixed
deriving DecidableEq, Repr

/-- The place of a pivot, and what the search for it says about the range. -/
def choosePivot (first last : Nat) (xs : Array α) : Nat × Impression :=
  let size := last - first
  let quarter := size / 4
  let (i, j, k) := (first + quarter, first + quarter * 2, first + quarter * 3)
  let (i, n) := if 50 ≤ size then median lt xs (i - 1) i (i + 1) 0 else (i, 0)
  let (j, n) := if 50 ≤ size then median lt xs (j - 1) j (j + 1) n else (j, n)
  let (k, n) := if 50 ≤ size then median lt xs (k - 1) k (k + 1) n else (k, n)
  let (pivot, n) := median lt xs i j k n
  (pivot, if n = 0 then .increasing else if n = 12 then .decreasing else .mixed)

/-- Turn a range around. -/
def turnAround (first last : Nat) (xs : Array α) : Array α :=
  (List.range ((last - first) / 2)).foldl
    (fun xs i => xs.swapIfInBounds (first + i) (last - 1 - i)) xs

/-- What is known about a range from the partings before. -/
structure Course where
  /-- How many uneven partings are left. -/
  limit : Nat
  /-- Whether the last parting was even. -/
  even : Bool
  /-- Whether the range of the last parting was parted before. -/
  already : Bool

/-- The length up to which a range is sorted by insertion. -/
def shortLength : Nat :=
  12

/-- Sort the range from `first` to before `last`, which is not longer than `fuel`. -/
def sortRange : Nat → Course → Nat → Nat → Array α → Array α
  | 0, _, _, _, xs => xs
  | fuel + 1, course, first, last, xs =>
    let size := last - first
    if size ≤ shortLength then insertionSort lt first last xs
    else if course.limit = 0 then heapSort lt first last xs
    else
      let xs := if course.even then xs else scatter first last xs
      let limit := if course.even then course.limit else course.limit - 1
      let (pivot, impression) := choosePivot lt first last xs
      let reversed := impression = .decreasing
      let xs := if reversed then turnAround first last xs else xs
      let pivot := if reversed then last - 1 - (pivot - first) else pivot
      let (sorted, xs) :=
        if course.even && course.already && impression ≠ .mixed then
          settle lt first last 5 (first + 1) xs
        else (false, xs)
      if sorted then xs
      else if 0 < first && !precedes lt xs (first - 1) pivot then
        let p := partEqual lt first last pivot xs
        sortRange fuel { course with limit := limit } p.place last p.items
      else
        let p := part lt first last pivot xs
        let (left, right) := (p.place - first, last - p.place)
        let fresh : Course := ⟨limit, true, true⟩
        let next (even : Bool) : Course := ⟨limit, even, p.already⟩
        if left < right then
          sortRange fuel (next (size / 8 ≤ left)) (p.place + 1) last
            (sortRange fuel fresh first p.place p.items)
        else
          sortRange fuel (next (size / 8 ≤ right)) first p.place
            (sortRange fuel fresh (p.place + 1) last p.items)

/-- A list in order. -/
def sort (xs : List α) : List α :=
  (sortRange lt (xs.length + 1) ⟨bitSize xs.length, true, true⟩ 0 xs.length xs.toArray).toList

end TreeCode.Quicksort

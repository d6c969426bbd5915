/-
# Label names are unique

A supply answers three kinds of request, in any order: for a jump label, for the label of
a string literal, and for the label of a declared name. All three share one table of names,
and a declared name may look like a numbered or a generated one. Still no name is handed out
twice, a declared name is kept unless it has been handed out before, and the numbers of the
generated names grow.

A search for a free name looks at a bounded number of candidates. `Search` is the search
without a bound, and every request is answered as that search answers it: no search goes on
for ever.
-/

import TreeCode.Proofs.Supply

namespace TreeCode

/-- What a supply of labels can be asked for. -/
inductive Request where
  | jump
  | literal
  | declared (name : String)
deriving DecidableEq

/-- A request and the name it was answered with. -/
structure Grant where
  request : Request
  name : String
deriving DecidableEq

namespace Supply

/-- The candidate of a number for a jump label. -/
def jumpName (k : Nat) : String :=
  "L" ++ toString k

/-- The candidate of a number for the label of a string literal. -/
def literalName (k : Nat) : String :=
  "S" ++ toString k

/-- Look at one candidate after the other, starting with that of a number, until one of them
is free: its number is the outcome. -/
inductive Search (s : Supply) (candidate : Nat → String) : Nat → Nat → Prop
  | found {k : Nat} : candidate k ∉ s.names → Search s candidate k k
  | next {k j : Nat} : candidate k ∈ s.names → Search s candidate (k + 1) j →
      Search s candidate k j

/-- The label for a request. -/
def answer (s : Supply) : Request → Label × Supply
  | .jump => s.label
  | .literal => s.string
  | .declared name => s.named name

/-- A request is answered with a name by searches that have no bound. -/
inductive Answers (s : Supply) : Request → String → Prop
  | jump {j : Nat} : Search s jumpName s.labels j → Answers s .jump (jumpName j)
  | literal {j : Nat} : Search s literalName s.strings j → Answers s .literal (literalName j)
  | kept {name : String} : name ∉ s.names → Answers s (.declared name) name
  | numbered {name : String} {k j : Nat} : s.taken.lookup name = some k →
      Search s (numbered name) (k + 1) j → Answers s (.declared name) (numbered name j)

/-- The supply after some requests. -/
def after (s : Supply) : List Request → Supply
  | [] => s
  | r :: rest => (s.answer r).2.after rest

/-- The answers to some requests, in order. -/
def grants (s : Supply) : List Request → List Grant
  | [] => []
  | r :: rest => ⟨r, (s.answer r).1.name⟩ :: (s.answer r).2.grants rest

variable (requests : List Request) {s : Supply} {candidate : Nat → String} {n : String}

/-- A search that ends within a bound ends without it. -/
theorem search_of_find? {j : Nat} (n : Nat) :
    ∀ start, (List.range' start n).find? (fun k => s.isFree (candidate k)) = some j →
      Search s candidate start j := by
  induction n with
  | zero =>
    intro start h
    cases h
  | succ n ih =>
    intro start h
    rw [List.range'_succ, List.find?_cons] at h
    cases hfree : s.isFree (candidate start) with
    | true =>
      rw [hfree] at h
      cases h
      exact .found (isFree_iff.1 hfree)
    | false =>
      rw [hfree] at h
      have hmem : candidate start ∈ s.names := by
        by_contra hnot
        rw [isFree_iff.2 hnot] at hfree
        cases hfree
      exact .next hmem (ih (start + 1) h)

/-- A search among different candidates ends, with the number that is drawn. -/
theorem search_firstFree (h : Function.Injective candidate) (start : Nat) :
    Search s candidate start (s.firstFree candidate start) := by
  obtain ⟨j, hfind⟩ := exists_free h start
  rw [firstFree, hfind]
  exact search_of_find? _ start hfind

/-- A search does not go back. -/
theorem Search.le {k j : Nat} (h : Search s candidate k j) : k ≤ j := by
  induction h with
  | found _ => exact Nat.le_refl _
  | next _ _ ih => exact Nat.le_of_succ_le ih

/-- Every request is answered, and as a search without a bound answers it. -/
theorem answers_answer (s : Supply) (r : Request) : s.Answers r (s.answer r).1.name := by
  cases r with
  | jump => exact .jump (search_firstFree (candidate_injective "L") s.labels)
  | literal => exact .literal (search_firstFree (candidate_injective "S") s.strings)
  | declared name =>
    simp only [answer, named]
    split
    next h => exact .kept (isFree_iff.1 (by rw [isFree, h]; rfl))
    next k h =>
      exact .numbered h (search_firstFree (candidate_injective (name ++ "#")) (k + 1))

/-- The answer to a request is a new name. -/
theorem answer_notMem (s : Supply) (r : Request) : (s.answer r).1.name ∉ s.names := by
  cases r with
  | jump => exact firstFree_notMem (candidate_injective "L") s.labels
  | literal => exact firstFree_notMem (candidate_injective "S") s.strings
  | declared name => exact s.named_notMem name

/-- The names handed out after a request are those from before it and its answer. -/
theorem mem_names_answer {r : Request} :
    n ∈ (s.answer r).2.names ↔ n = (s.answer r).1.name ∨ n ∈ s.names := by
  cases r with
  | jump | literal => exact List.mem_cons
  | declared name =>
    simp only [answer, named]
    split
    · exact List.mem_cons
    next k h =>
      -- a name that gets another number is one of those handed out before
      have hname : name ∈ s.names := by
        by_contra hnot
        have hfree := isFree_iff.2 hnot
        rw [isFree, h] at hfree
        cases hfree
      simp only [names, List.map_cons, List.mem_cons, Label.ofName_name]
      constructor
      · rintro (rfl | rfl | hmem)
        · exact .inl rfl
        · exact .inr hname
        · exact .inr hmem
      · rintro (rfl | hmem)
        · exact .inl rfl
        · exact .inr (.inr hmem)

/-- The names handed out after some requests are those from before them and the answers. -/
theorem mem_names_after : ∀ {requests : List Request} {s : Supply},
    n ∈ (s.after requests).names ↔
      n ∈ (s.grants requests).map (·.name) ∨ n ∈ s.names
  | [], s => by simp [after, grants]
  | r :: rest, s => by
    rw [after, mem_names_after, mem_names_answer, grants, List.map_cons, List.mem_cons, or_assoc]
    exact or_left_comm

theorem requests_grants : ∀ (requests : List Request) (s : Supply),
    (s.grants requests).map (·.request) = requests
  | [], _ => rfl
  | r :: rest, s => congrArg (r :: ·) (requests_grants rest (s.answer r).2)

/-- No name is handed out that was handed out before, and none is handed out twice. -/
theorem names_grants_nodup : ∀ (requests : List Request) (s : Supply),
    ((s.grants requests).map (·.name)).Nodup ∧
      ∀ n ∈ (s.grants requests).map (·.name), n ∉ s.names
  | [], _ => ⟨List.nodup_nil, fun _ hn => absurd hn List.not_mem_nil⟩
  | r :: rest, s => by
    obtain ⟨hnodup, hnew⟩ := names_grants_nodup rest (s.answer r).2
    rw [grants, List.map_cons]
    constructor
    · refine List.nodup_cons.2 ⟨fun hmem => ?_, hnodup⟩
      exact hnew _ hmem (mem_names_answer.2 (.inl rfl))
    · intro n hn
      rcases List.mem_cons.1 hn with rfl | hn
      · exact s.answer_notMem r
      · exact fun hmem => hnew n hn (mem_names_answer.2 (.inr hmem))

/-- A request is answered by the supply that the requests before it leave. -/
theorem answer_of_grants {before later : List Grant} {g : Grant} :
    ∀ {requests : List Request} {s : Supply}, s.grants requests = before ++ g :: later →
      ∃ first, s.grants first = before ∧ g.name = ((s.after first).answer g.request).1.name := by
  induction before with
  | nil =>
    intro requests s h
    cases requests with
    | nil => cases h
    | cons r rest =>
      cases h
      exact ⟨[], rfl, rfl⟩
  | cons g' before ih =>
    intro requests s h
    cases requests with
    | nil => cases h
    | cons r rest =>
      rw [grants, List.cons_append, List.cons.injEq] at h
      obtain ⟨hhead, htail⟩ := h
      obtain ⟨first, hfirst, hname⟩ := ih htail
      exact ⟨r :: first, by rw [grants, hhead, hfirst], hname⟩

/-- The answers to one kind of request are candidates with growing numbers. -/
def Ascends (candidate : Nat → String) (r : Request) (grants : List Grant) : Prop :=
  ∃ numbers : List Nat, numbers.Pairwise (· < ·) ∧
    (grants.filter (·.request = r)).map (·.name) = numbers.map candidate

/-- If every answer to a request is the candidate of a number from a count on, and the count
passes that number, then the numbers grow. -/
theorem ascends_of_count (candidate : Nat → String) (r : Request) (count : Supply → Nat)
    (hanswer : ∀ s : Supply, ∃ j, count s ≤ j ∧ (s.answer r).1.name = candidate j ∧
      count (s.answer r).2 = j + 1)
    (hother : ∀ (s : Supply) (q : Request), q ≠ r → count (s.answer q).2 = count s) :
    ∀ (requests : List Request) (s : Supply), ∃ numbers : List Nat, numbers.Pairwise (· < ·) ∧
      (∀ k ∈ numbers, count s ≤ k) ∧
      ((s.grants requests).filter (·.request = r)).map (·.name) = numbers.map candidate
  | [], _ => ⟨[], .nil, fun _ hk => absurd hk List.not_mem_nil, rfl⟩
  | q :: rest, s => by
    obtain ⟨numbers, hsorted, hlow, hnames⟩ :=
      ascends_of_count candidate r count hanswer hother rest (s.answer q).2
    by_cases hq : q = r
    · subst hq
      obtain ⟨j, hj, hname, hcount⟩ := hanswer s
      refine ⟨j :: numbers, List.pairwise_cons.2 ⟨fun k hk => ?_, hsorted⟩, ?_, ?_⟩
      · have hle := hlow k hk
        omega
      · intro k hk
        rcases List.mem_cons.1 hk with rfl | hk
        · exact hj
        · have hle := hlow k hk
          omega
      · rw [grants, List.filter_cons_of_pos (by simp), List.map_cons, List.map_cons, hnames,
          hname]
    · refine ⟨numbers, hsorted, fun k hk => hother s q hq ▸ hlow k hk, ?_⟩
      rw [grants, List.filter_cons_of_neg (by simpa using hq), hnames]

theorem named_counts (s : Supply) (name : String) :
    (s.named name).2.labels = s.labels ∧ (s.named name).2.strings = s.strings := by
  unfold named
  split <;> exact ⟨rfl, rfl⟩

theorem ascends_jump (s : Supply) : Ascends jumpName .jump (s.grants requests) := by
  obtain ⟨numbers, hsorted, -, hnames⟩ := ascends_of_count jumpName .jump Supply.labels
    (fun s => ⟨_, (search_firstFree (candidate_injective "L") s.labels).le, rfl, rfl⟩)
    (by
      intro s q hq
      cases q with
      | jump => exact absurd rfl hq
      | literal => rfl
      | declared name => exact (s.named_counts name).1)
    requests s
  exact ⟨numbers, hsorted, hnames⟩

theorem ascends_literal (s : Supply) : Ascends literalName .literal (s.grants requests) := by
  obtain ⟨numbers, hsorted, -, hnames⟩ := ascends_of_count literalName .literal Supply.strings
    (fun s => ⟨_, (search_firstFree (candidate_injective "S") s.strings).le, rfl, rfl⟩)
    (by
      intro s q hq
      cases q with
      | jump => rfl
      | literal => exact absurd rfl hq
      | declared name => exact (s.named_counts name).2)
    requests s
  exact ⟨numbers, hsorted, hnames⟩

/-- A declared name is kept exactly when it is free, and else it gets a positive number. -/
theorem Answers.of_declared {name : String} (h : s.Answers (.declared name) n) :
    (n = name ↔ name ∉ s.names) ∧ (n ≠ name → ∃ k, 1 ≤ k ∧ n = Supply.numbered name k) := by
  cases h with
  | kept hfree => exact ⟨⟨fun _ => hfree, fun _ => rfl⟩, fun hne => absurd rfl hne⟩
  | @numbered _ k j hlookup hsearch =>
    have hne : Supply.numbered name j ≠ name := by
      intro heq
      have hlength := congrArg String.length heq
      rw [Supply.numbered, String.length_append, String.length_append] at hlength
      have hhash : "#".length = 1 := rfl
      omega
    have htaken : ¬ name ∉ s.names := by
      intro hnot
      have hfree := isFree_iff.2 hnot
      rw [isFree, hlookup] at hfree
      cases hfree
    have hle := hsearch.le
    exact ⟨⟨fun heq => absurd heq hne, fun hnot => absurd hnot htaken⟩,
      fun _ => ⟨j, by omega, rfl⟩⟩

/-- Label names are unique. Whatever requests are made of a new supply, each of them is
answered, by a search that needs no bound; no two answers have the same name; a declared name
is kept exactly when no earlier answer has it, and else gets a positive number; and the numbers
of generated names grow. -/
theorem names_unique (requests : List Request) :
    (empty.grants requests).map (·.request) = requests ∧
      ((empty.grants requests).map (·.name)).Nodup ∧
      (∀ before g later, empty.grants requests = before ++ g :: later →
        (empty.after (before.map (·.request))).Answers g.request g.name ∧
        ∀ name, g.request = .declared name →
          (g.name = name ↔ name ∉ before.map (·.name)) ∧
          (g.name ≠ name → ∃ k, 1 ≤ k ∧ g.name = numbered name k)) ∧
      Ascends jumpName .jump (empty.grants requests) ∧
      Ascends literalName .literal (empty.grants requests) := by
  refine ⟨requests_grants requests empty, (names_grants_nodup requests empty).1, ?_,
    ascends_jump requests empty, ascends_literal requests empty⟩
  intro before g later hgrants
  obtain ⟨first, rfl, hname⟩ := answer_of_grants hgrants
  have hanswers : (empty.after first).Answers g.request g.name := by
    rw [hname]
    exact answers_answer _ _
  have hmem : ∀ n, n ∈ (empty.after first).names ↔ n ∈ (empty.grants first).map (·.name) := by
    intro n
    rw [mem_names_after]
    exact or_iff_left List.not_mem_nil
  rw [requests_grants]
  refine ⟨hanswers, fun name hdeclared => ?_⟩
  rw [hdeclared] at hanswers
  rw [← hmem]
  exact hanswers.of_declared

/-- Requests for declared names that look numbered or generated. -/
def lookalikes : List Request :=
  [.declared "x#1", .declared "x", .declared "x", .declared "x#1", .declared "L0", .jump]

/-- The second `x` passes over the number that is declared, and the second `x#1` gets a number
of its own. -/
theorem lookalikes_unique :
    (empty.grants lookalikes).map (·.name) = ["x#1", "x", "x#2", "x#1#1", "L0", "L1"] ∧
      ((empty.grants lookalikes).map (·.name)).Nodup ∧
      ∃ k, 1 ≤ k ∧ "x#1#1" = numbered "x#1" k := by
  have hgrants : empty.grants lookalikes =
      [⟨.declared "x#1", "x#1"⟩, ⟨.declared "x", "x"⟩, ⟨.declared "x", "x#2"⟩] ++
        ⟨.declared "x#1", "x#1#1"⟩ :: [⟨.declared "L0", "L0"⟩, ⟨.jump, "L1"⟩] := by
    decide +kernel
  obtain ⟨-, hnodup, hanswers, -⟩ := names_unique lookalikes
  obtain ⟨-, hdeclared⟩ := hanswers _ _ _ hgrants
  exact ⟨by rw [hgrants]; rfl, hnodup, (hdeclared "x#1" rfl).2 (by decide)⟩

end Supply

end TreeCode

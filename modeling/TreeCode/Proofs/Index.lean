/-
# Looking things up in a program

The names of the chunks of a program are distinct, so everything that is looked up by a
label or a name is found where it was put: functions, static data and the literals in
their order.
-/

import TreeCode.Proofs.Lowering.Traversal

namespace TreeCode

open IR (Chunk Stmt)

variable {α : Type} (chunks : List Chunk) {β : Type} {key : α → β} {l : List α} {a : α}

/-- Among things with different keys, only one has the key of each. -/
theorem filter_of_nodup [BEq β] [LawfulBEq β] (h : (l.map key).Nodup) (ha : a ∈ l)
    : l.filter (fun b => key b == key a) = [a] := by
  induction l with
  | nil => cases ha
  | cons b rest ih =>
    obtain ⟨hb, hrest⟩ := List.nodup_cons.1 h
    cases ha with
    | head =>
      have hnone : rest.filter (fun c => key c == key a) = [] :=
        List.filter_eq_nil_iff.2 fun c hc heq =>
          hb (beq_iff_eq.1 heq ▸ List.mem_map_of_mem hc)
      simp only [List.filter_cons, beq_self_eq_true, if_true, hnone]
    | tail _ ha =>
      have hne : (key b == key a) = false :=
        beq_eq_false_iff_ne.2 fun heq => hb (heq ▸ List.mem_map_of_mem ha)
      simp only [List.filter_cons, hne, ih hrest ha, Bool.false_eq_true, if_false]

/-- Among things with different keys, each is found by its own. -/
theorem find?_of_nodup [BEq β] [LawfulBEq β] (h : (l.map key).Nodup) (ha : a ∈ l)
    : l.find? (fun b => key b == key a) = some a := by
  rw [← List.head?_filter, filter_of_nodup h ha, List.head?_cons]

/-- Things whose labels have different names have different labels. -/
theorem nodup_of_names {label : α → Label} (h : (l.map fun a => (label a).name).Nodup)
    : (l.map label).Nodup := by
  have hmap : (l.map fun a => (label a).name) = (l.map label).map Label.name := by simp
  rw [hmap] at h
  exact h.of_map

namespace Program

theorem nodup_of_repeated? {seen names : List String} (h : repeated? seen names = none) :
    names.Nodup ∧ ∀ n ∈ names, n ∉ seen := by
  induction names generalizing seen with
  | nil => exact ⟨List.nodup_nil, fun _ hn => by cases hn⟩
  | cons n rest ih =>
    rw [repeated?] at h
    split at h
    · cases h
    next hn =>
      obtain ⟨hnodup, hseen⟩ := ih h
      refine ⟨List.nodup_cons.2 ⟨fun hmem => hseen n hmem List.mem_cons_self, hnodup⟩, ?_⟩
      rintro m hm hmem
      cases hm with
      | head => exact hn (List.contains_iff_mem.2 hmem)
      | tail _ hm => exact hseen m hm (List.mem_cons_of_mem _ hmem)

/-- Chunks with different names have an index. -/
theorem exists_ofChunks_of_nodup {chunks : List Chunk}
    (h : (chunks.map (·.label.name)).Nodup) : ∃ p, ofChunks chunks = .ok p := by
  have hnone : ∀ {names seen : List String}, names.Nodup → (∀ n ∈ names, n ∉ seen) →
      repeated? seen names = none := by
    intro names
    induction names with
    | nil => exact fun _ _ => rfl
    | cons n rest ih =>
      intro seen hnodup hseen
      obtain ⟨hn, hrest⟩ := List.nodup_cons.1 hnodup
      rw [repeated?, if_neg (by simpa using hseen n List.mem_cons_self)]
      refine ih hrest fun m hm hmem => ?_
      rcases List.mem_cons.1 hmem with rfl | hmem
      · exact hn hm
      · exact hseen m (List.mem_cons_of_mem _ hm) hmem
  unfold ofChunks
  rw [hnone h fun _ _ => List.not_mem_nil]
  exact ⟨_, rfl⟩

theorem functionsOf_eq (chunks : List Chunk) :
    functionsOf chunks = chunks.filterMap fun
      | .code frame body => some ⟨frame, .ofStmt body⟩
      | .data .. => none := by
  induction chunks with
  | nil => rfl
  | cons c rest ih => cases c <;> simp [functionsOf, ih]

/-- The names of functions are among those of the chunks, in the same order. -/
theorem sublist_functionsOf (chunks : List Chunk) :
    ((functionsOf chunks).map (·.frame.label.name)).Sublist (chunks.map (·.label.name)) := by
  induction chunks with
  | nil => exact .slnil
  | cons c rest ih =>
    cases c with
    | code frame body => exact ih.cons_cons _
    | data l size init => exact ih.cons _

theorem sublist_dataFrom (chunks : List Chunk) : ∀ offset : Word,
    ((dataFrom offset chunks).map (·.label.name)).Sublist (chunks.map (·.label.name)) := by
  induction chunks with
  | nil => exact fun _ => .slnil
  | cons c rest ih =>
    cases c with
    | code frame body => exact fun offset => (ih offset).cons _
    | data l size init => exact fun offset => (ih (offset + size)).cons_cons _

/-- The literals are the data with initial bytes, in the order of the chunks. -/
theorem literalLabels_eq (chunks : List Chunk) : ∀ offset : Word,
    literalLabels chunks =
      ((dataFrom offset chunks).filter fun d => !d.init.isEmpty).map (·.label) := by
  induction chunks with
  | nil => exact fun _ => rfl
  | cons c rest ih =>
    intro offset
    cases c with
    | code frame body => exact ih offset
    | data l size init =>
      have hrest := ih (offset + size)
      unfold literalLabels at hrest ⊢
      rw [dataFrom, List.filter_cons, List.filterMap_cons, hrest]
      cases init with
      | nil | cons _ _ => rfl

variable {chunks : List Chunk} {p : Program} (h : ofChunks chunks = .ok p)

include h

theorem names_nodup : (chunks.map (·.label.name)).Nodup := by
  unfold ofChunks at h
  split at h
  · cases h
  next hnone => exact (nodup_of_repeated? hnone).1

theorem functions_nodup : (p.functions.map (·.frame.label.name)).Nodup := by
  have hnames := names_nodup h
  cases ofChunks_eq_ok h
  exact (sublist_functionsOf chunks).nodup hnames

variable {frame : Frame} {body : Stmt}

theorem mem_functions_of_code (hmem : .code frame body ∈ chunks) :
    ⟨frame, .ofStmt body⟩ ∈ p.functions := by
  cases ofChunks_eq_ok h
  rw [functionsOf_eq]
  exact List.mem_filterMap.2 ⟨_, hmem, rfl⟩

theorem exists_code_of_mem_functions {f : Function} (hf : f ∈ p.functions) :
    ∃ body, .code f.frame body ∈ chunks ∧ f.body = .ofStmt body := by
  cases ofChunks_eq_ok h
  rw [functionsOf_eq] at hf
  obtain ⟨c, hc, heq⟩ := List.mem_filterMap.1 hf
  cases c with
  | code frame body =>
    cases heq
    exact ⟨body, hc, rfl⟩
  | data l size init => cases heq

/-- A function is found by its name. -/
theorem lookup?_of_code (hmem : .code frame body ∈ chunks) :
    p.lookup? frame.label.name = some ⟨frame, .ofStmt body⟩ :=
  find?_of_nodup (functions_nodup h) (mem_functions_of_code h hmem)

/-- A function is found by its label. -/
theorem function?_of_code (hmem : .code frame body ∈ chunks) :
    p.function? frame.label = some ⟨frame, .ofStmt body⟩ :=
  find?_of_nodup (nodup_of_names (functions_nodup h)) (mem_functions_of_code h hmem)

/-- Literals have the addresses that belong to their numbers. -/
theorem literals_of_chunks : p.Literals 0 (literalLabels chunks) := by
  have hnames := names_nodup h
  cases ofChunks_eq_ok h
  intro j l hj
  rw [literalLabels_eq chunks 0, List.getElem?_map] at hj
  obtain ⟨d, hd, rfl⟩ := Option.map_eq_some_iff.1 hj
  have hmem : d ∈ dataFrom 0 chunks := List.mem_of_mem_filter (List.mem_of_getElem? hd)
  have hnodup : ((dataFrom 0 chunks).map (·.label)).Nodup :=
    nodup_of_names ((sublist_dataFrom chunks 0).nodup hnames)
  rw [address?, find?_of_nodup hnodup hmem, literal, Nat.zero_add, hd]
  rfl

end Program

/-- Linear code has the names of the chunks it was made from. -/
theorem IR.Chunk.labels_canonicalAll : ∀ n : Nat,
    (Chunk.canonicalAll chunks n).1.map (·.label) = chunks.map (·.label) := by
  induction chunks with
  | nil => exact fun _ => rfl
  | cons c rest ih =>
    cases c with
    | code frame body => exact fun n => congrArg (frame.label :: ·) (ih _)
    | data l size init => exact fun n => congrArg (l :: ·) (ih n)

theorem IR.Chunk.names_canonicalAll (n : Nat) :
    (Chunk.canonicalAll chunks n).1.map (·.label.name) = chunks.map (·.label.name) := by
  have hlabels := congrArg (List.map Label.name) (Chunk.labels_canonicalAll chunks n)
  rwa [List.map_map, List.map_map] at hlabels

end TreeCode

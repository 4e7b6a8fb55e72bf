import FakeLisp.WhileLoop
import Mathlib.Data.Set.Card
import Mathlib.Logic.Relation

/-! Worklists. The nodes found so far wait in a queue until the edges that leave them are
recorded. -/

namespace FakeLisp

structure ExploreNode (κ E : Type*) where
  key : κ
  edges : List E

/-- The nodes in the order in which they were found, and those that wait, by their places. -/
structure Explore (κ E : Type*) where
  nodes : List (ExploreNode κ E)
  pending : List Nat

namespace Explore

variable {κ L E : Type*} (labels : κ → List L) (target : κ → L → κ) (edge : L → Nat → E)

def addEdge (i : Nat) (e : E) (nodes : List (ExploreNode κ E)) : List (ExploreNode κ E) :=
  nodes.modify i fun n => { n with edges := e :: n.edges }

section

variable [DecidableEq κ]

/-- One label of the node at `i` is followed. -/
def follow (i : Nat) (k : κ) (s : Explore κ E) (l : L) : Explore κ E :=
  match s.nodes.findIdx? fun n => n.key = target k l with
  | some d => ⟨addEdge i (edge l d) s.nodes, s.pending⟩
  | none => ⟨addEdge i (edge l s.nodes.length) (s.nodes ++ [⟨target k l, []⟩]),
      s.pending ++ [s.nodes.length]⟩

/-- The first node that waits. -/
def expand (s : Explore κ E) : Option (Explore κ E) :=
  match s.pending with
  | [] => none
  | i :: rest => (s.nodes[i]?).map fun n =>
      (labels n.key).foldl (follow target edge i n.key) ⟨s.nodes, rest⟩

def run (start : κ) (fuel : Nat) : Option (Explore κ E) :=
  whileLoop (fun s => !s.pending.isEmpty) (expand labels target edge) fuel ⟨[⟨start, []⟩], [0]⟩

end

/-- A label leads from one key to the other. -/
def Leads (k k' : κ) : Prop := ∃ l ∈ labels k, target k l = k'

def keys (nodes : List (ExploreNode κ E)) : List κ := nodes.map (·.key)

/-- `dealt` are the labels, by node, whose edges are there. -/
structure Inv (start : κ) (dealt : Nat → L → Prop) (nodes : List (ExploreNode κ E)) : Prop where
  nodup : (keys nodes).Nodup
  start_mem : start ∈ keys nodes
  reach : ∀ k ∈ keys nodes, Relation.ReflTransGen (Leads labels target) start k
  dealt_lt : ∀ i l, dealt i l → i < nodes.length
  edges : ∀ (i : Nat) (n : ExploreNode κ E), nodes[i]? = some n → ∀ l ∈ labels n.key, dealt i l →
    ∃ d, edge l d ∈ n.edges ∧ (keys nodes)[d]? = some (target n.key l)
  sound : ∀ (i : Nat) (n : ExploreNode κ E), nodes[i]? = some n → ∀ e ∈ n.edges,
    ∃ l ∈ labels n.key, ∃ d, e = edge l d ∧ (keys nodes)[d]? = some (target n.key l)

section

variable {labels target edge}

theorem getElem_addEdge {i j : Nat} {e : E} {nodes : List (ExploreNode κ E)}
    {m : ExploreNode κ E} (h : (addEdge i e nodes)[j]? = some m) :
    ∃ n, nodes[j]? = some n ∧ m.key = n.key ∧
      m.edges = if i = j then e :: n.edges else n.edges := by
  rw [addEdge, List.getElem?_modify] at h
  cases hn : nodes[j]? with
  | none => simp [hn] at h
  | some n =>
    rw [hn] at h
    obtain rfl := Option.some.inj h
    refine ⟨n, rfl, ?_⟩
    split_ifs <;> simp

@[simp] theorem keys_addEdge (i : Nat) (e : E) (nodes : List (ExploreNode κ E)) :
    keys (addEdge i e nodes) = keys nodes := by
  unfold keys addEdge
  refine List.ext_getElem? fun j => ?_
  simp only [List.getElem?_map, List.getElem?_modify]
  split_ifs <;> cases nodes[j]? <;> simp

@[simp] theorem length_addEdge (i : Nat) (e : E) (nodes : List (ExploreNode κ E)) :
    (addEdge i e nodes).length = nodes.length := by
  simp [addEdge]

@[simp] theorem keys_append (nodes : List (ExploreNode κ E)) (n : ExploreNode κ E) :
    keys (nodes ++ [n]) = keys nodes ++ [n.key] := by
  simp [keys]

@[simp] theorem length_keys (nodes : List (ExploreNode κ E)) :
    (keys nodes).length = nodes.length := by
  simp [keys]

theorem mem_keys {nodes : List (ExploreNode κ E)} {i : Nat} {n : ExploreNode κ E}
    (h : nodes[i]? = some n) : n.key ∈ keys nodes :=
  List.mem_map_of_mem (List.mem_of_getElem? h)

variable {start : κ} {dealt : Nat → L → Prop} {nodes : List (ExploreNode κ E)}

theorem Inv.addEdge (h : Inv labels target edge start dealt nodes) {i d : Nat}
    {n : ExploreNode κ E} {l : L} (hn : nodes[i]? = some n) (hl : l ∈ labels n.key)
    (hd : (keys nodes)[d]? = some (target n.key l)) :
    Inv labels target edge start (fun j l' => dealt j l' ∨ j = i ∧ l' = l)
      (Explore.addEdge i (edge l d) nodes) where
  nodup := by simpa using h.nodup
  start_mem := by simpa using h.start_mem
  reach := by simpa using h.reach
  dealt_lt := by
    rintro j l' (hj | ⟨rfl, rfl⟩)
    · simpa using h.dealt_lt j l' hj
    · simpa using (List.getElem?_eq_some_iff.mp hn).1
  edges := by
    intro j m hm l' hl' hdealt
    obtain ⟨n', hn', hkey, hedges⟩ := getElem_addEdge hm
    rw [hkey] at hl' ⊢
    rw [keys_addEdge]
    rcases hdealt with hdealt | ⟨rfl, rfl⟩
    · obtain ⟨d', he, hd'⟩ := h.edges j n' hn' l' hl' hdealt
      refine ⟨d', ?_, hd'⟩
      rw [hedges]
      split_ifs <;> simp [he]
    · obtain rfl : n = n' := by simpa [hn] using hn'
      exact ⟨d, by simp [hedges], hd⟩
  sound := by
    intro j m hm e he
    obtain ⟨n', hn', hkey, hedges⟩ := getElem_addEdge hm
    rw [hkey, keys_addEdge]
    rw [hedges] at he
    by_cases hij : i = j
    · subst hij
      obtain rfl : n = n' := by simpa [hn] using hn'
      rw [if_pos rfl] at he
      rcases List.mem_cons.mp he with rfl | he
      · exact ⟨l, hl, d, rfl, hd⟩
      · exact h.sound i n hn e he
    · rw [if_neg hij] at he
      exact h.sound j n' hn' e he

theorem Inv.append (h : Inv labels target edge start dealt nodes) {k : κ}
    (hk : k ∉ keys nodes) (hreach : Relation.ReflTransGen (Leads labels target) start k) :
    Inv labels target edge start dealt (nodes ++ [⟨k, []⟩]) where
  nodup := by
    rw [keys_append, List.nodup_append]
    refine ⟨h.nodup, by simp, ?_⟩
    rintro a ha b hb rfl
    obtain rfl : a = k := by simpa using hb
    exact hk ha
  start_mem := by simp [h.start_mem]
  reach := by
    intro k' hk'
    rcases List.mem_append.mp (keys_append nodes _ ▸ hk') with hk' | hk'
    · exact h.reach k' hk'
    · obtain rfl : k' = k := by simpa using hk'
      exact hreach
  dealt_lt i l hi := by
    have := h.dealt_lt i l hi
    simp
    omega
  edges := by
    intro i n hn l hl hdealt
    have hi := h.dealt_lt i l hdealt
    rw [List.getElem?_append_left hi] at hn
    obtain ⟨d, he, hd⟩ := h.edges i n hn l hl hdealt
    refine ⟨d, he, ?_⟩
    rw [keys_append, List.getElem?_append_left (List.getElem?_eq_some_iff.mp hd).1, hd]
  sound := by
    intro i n hn e he
    rcases Nat.lt_or_ge i nodes.length with hi | hi
    · rw [List.getElem?_append_left hi] at hn
      obtain ⟨l, hl, d, he, hd⟩ := h.sound i n hn e he
      refine ⟨l, hl, d, he, ?_⟩
      rw [keys_append, List.getElem?_append_left (List.getElem?_eq_some_iff.mp hd).1, hd]
    · -- the new node has no edges yet
      rw [List.getElem?_append_right hi] at hn
      obtain rfl : n = ⟨k, []⟩ := by
        have := List.mem_of_getElem? hn
        simpa using this
      simp at he

/-- The keys that are still to be found and the nodes that wait. -/
noncomputable def left (C : Set κ) (s : Explore κ E) : Nat :=
  (C \ {k | k ∈ keys s.nodes}).ncard + s.pending.length

/-- Nothing is lost, and new nodes wait. -/
structure Extends (C : Set κ) (s s' : Explore κ E) : Prop where
  keys_prefix : keys s.nodes <+: keys s'.nodes
  pending_sub : s.pending ⊆ s'.pending
  new_pending : ∀ i, i < s'.nodes.length → i < s.nodes.length ∨ i ∈ s'.pending
  pending_lt : (∀ i ∈ s.pending, i < s.nodes.length) → ∀ i ∈ s'.pending, i < s'.nodes.length
  left_le : left C s' ≤ left C s

theorem Extends.refl (C : Set κ) (s : Explore κ E) : Extends C s s :=
  ⟨List.prefix_refl _, List.Subset.refl _, fun _ hi => Or.inl hi, id, le_rfl⟩

theorem Extends.trans {C : Set κ} {s s' s'' : Explore κ E} (h : Extends C s s')
    (h' : Extends C s' s'') : Extends C s s'' where
  keys_prefix := h.keys_prefix.trans h'.keys_prefix
  pending_sub _ hi := h'.pending_sub (h.pending_sub hi)
  new_pending i hi := by
    rcases h'.new_pending i hi with hi | hi
    · exact (h.new_pending i hi).imp_right fun hi => h'.pending_sub hi
    · exact Or.inr hi
  pending_lt := h'.pending_lt ∘ h.pending_lt
  left_le := h'.left_le.trans h.left_le

/-- The node at a place keeps its key. -/
theorem Extends.getElem {C : Set κ} {s s' : Explore κ E} (h : Extends C s s') {i : Nat}
    {n : ExploreNode κ E} (hn : s.nodes[i]? = some n) :
    ∃ n', s'.nodes[i]? = some n' ∧ n'.key = n.key := by
  have hi := (List.getElem?_eq_some_iff.mp hn).1
  have hkey : (keys s.nodes)[i]? = some n.key := by simp [keys, hn]
  obtain ⟨t, ht⟩ := h.keys_prefix
  have hkey' : (keys s'.nodes)[i]? = some n.key := by
    rw [← ht, List.getElem?_append_left (by simpa using hi), hkey]
  simpa [keys, and_comm] using hkey'

variable [DecidableEq κ]

theorem follow_inv {C : Set κ} (hC : C.Finite) {s : Explore κ E} {i : Nat} {n : ExploreNode κ E}
    {l : L} (h : Inv labels target edge start dealt s.nodes) (hn : s.nodes[i]? = some n)
    (hl : l ∈ labels n.key) (hlC : target n.key l ∈ C) :
    Inv labels target edge start (fun j l' => dealt j l' ∨ j = i ∧ l' = l)
        (follow target edge i n.key s l).nodes ∧
      Extends C s (follow target edge i n.key s l) := by
  unfold follow
  cases hf : s.nodes.findIdx? fun m => m.key = target n.key l with
  | some d =>
    obtain ⟨hd, hdkey, _⟩ := List.findIdx?_eq_some_iff_getElem.mp hf
    refine ⟨h.addEdge hn hl (by simpa [keys, hd] using hdkey), ?_⟩
    exact ⟨by simp, List.Subset.refl _, fun j hj => Or.inl (by simpa using hj),
      fun hp j hj => by simpa using hp j hj, by simp [left]⟩
  | none =>
    have hnew : target n.key l ∉ keys s.nodes := by
      intro hmem
      obtain ⟨m, hm, hkey⟩ := List.mem_map.mp hmem
      have := List.findIdx?_eq_none_iff.mp hf m hm
      simp [hkey] at this
    have hreach : Relation.ReflTransGen (Leads labels target) start (target n.key l) :=
      (h.reach _ (mem_keys hn)).tail ⟨l, hl, rfl⟩
    have hi := (List.getElem?_eq_some_iff.mp hn).1
    have happ := h.append hnew hreach
    refine ⟨happ.addEdge (by rwa [List.getElem?_append_left hi]) hl (by simp), ?_⟩
    refine ⟨by simp, by simp, fun j hj => ?_, fun hp j hj => ?_, ?_⟩
    · simp only [length_addEdge, List.length_append, List.length_singleton] at hj
      simp only [List.mem_append, List.mem_singleton]
      omega
    · simp only [length_addEdge, List.length_append, List.length_singleton]
      rcases List.mem_append.mp hj with hj | hj
      · have := hp j hj
        omega
      · have := List.mem_singleton.mp hj
        omega
    · have hlt : (C \ {k | k ∈ keys s.nodes ++ [target n.key l]}).ncard <
          (C \ {k | k ∈ keys s.nodes}).ncard := by
        refine Set.ncard_lt_ncard ⟨fun k hk => ⟨hk.1, fun hk' => hk.2 ?_⟩, fun hsub => ?_⟩
          (hC.subset Set.sdiff_subset)
        · exact List.mem_append_left _ hk'
        · exact (hsub ⟨hlC, hnew⟩).2 (by simp)
      simp only [left, keys_addEdge, keys_append, List.length_append, List.length_singleton]
      omega

theorem foldl_follow_inv {C : Set κ} (hC : C.Finite) {i : Nat} {k : κ} (ls : List L)
    (hls : ∀ l ∈ ls, l ∈ labels k) (hlsC : ∀ l ∈ ls, target k l ∈ C) {s : Explore κ E}
    {n : ExploreNode κ E} (h : Inv labels target edge start dealt s.nodes)
    (hn : s.nodes[i]? = some n) (hk : n.key = k) :
    Inv labels target edge start (fun j l' => dealt j l' ∨ j = i ∧ l' ∈ ls)
        (ls.foldl (follow target edge i k) s).nodes ∧
      Extends C s (ls.foldl (follow target edge i k) s) := by
  induction ls generalizing s n dealt with
  | nil => simpa using ⟨h, Extends.refl C s⟩
  | cons l ls ih =>
    subst hk
    have hstep := follow_inv hC h hn (hls l (by simp)) (hlsC l (by simp))
    obtain ⟨n', hn', hkey⟩ := hstep.2.getElem hn
    obtain ⟨hinv, hext⟩ := ih (fun l hl => hls l (by simp [hl])) (fun l hl => hlsC l (by simp [hl]))
      hstep.1 hn' hkey
    refine ⟨?_, hstep.2.trans hext⟩
    simpa [List.foldl_cons, or_assoc, ← and_or_left] using hinv

/-- What an exploration gives: the keys that are reached, each once, with the edges of their
labels. -/
structure Explored (labels : κ → List L) (target : κ → L → κ) (edge : L → Nat → E) (start : κ)
    (nodes : List (ExploreNode κ E)) : Prop where
  nodup : (keys nodes).Nodup
  mem_iff : ∀ k, k ∈ keys nodes ↔ Relation.ReflTransGen (Leads labels target) start k
  edges : ∀ n ∈ nodes, ∀ l ∈ labels n.key,
    ∃ d, edge l d ∈ n.edges ∧ (keys nodes)[d]? = some (target n.key l)
  sound : ∀ n ∈ nodes, ∀ e ∈ n.edges,
    ∃ l ∈ labels n.key, ∃ d, e = edge l d ∧ (keys nodes)[d]? = some (target n.key l)

omit [DecidableEq κ] in
theorem Inv.explored {nodes : List (ExploreNode κ E)}
    (h : Inv labels target edge start (fun i _ => i < nodes.length) nodes) :
    Explored labels target edge start nodes := by
  have hedges : ∀ n ∈ nodes, ∀ l ∈ labels n.key,
      ∃ d, edge l d ∈ n.edges ∧ (keys nodes)[d]? = some (target n.key l) := by
    intro n hn l hl
    obtain ⟨i, hi⟩ := List.mem_iff_getElem?.mp hn
    exact h.edges i n hi l hl (List.getElem?_eq_some_iff.mp hi).1
  refine ⟨h.nodup, fun k => ⟨h.reach k, fun hk => ?_⟩, hedges, fun n hn e he => ?_⟩
  · induction hk with
    | refl => exact h.start_mem
    | tail _ hlead ih =>
      obtain ⟨n, hn, rfl⟩ := List.mem_map.mp ih
      obtain ⟨l, hl, rfl⟩ := hlead
      obtain ⟨d, _, hd⟩ := hedges n hn l hl
      exact List.mem_of_getElem? hd
  · obtain ⟨i, hi⟩ := List.mem_iff_getElem?.mp hn
    exact h.sound i n hi e he

/-- The invariant of the loop. -/
structure RunInv (labels : κ → List L) (target : κ → L → κ) (edge : L → Nat → E) (C : Set κ)
    (start : κ) (m : Nat) (s : Explore κ E) : Prop where
  inv : Inv labels target edge start (fun i _ => i < s.nodes.length ∧ i ∉ s.pending) s.nodes
  pending_lt : ∀ i ∈ s.pending, i < s.nodes.length
  left_le : left C s ≤ m

theorem expand_inv {C : Set κ} (hC : C.Finite)
    (hclosed : ∀ k, Relation.ReflTransGen (Leads labels target) start k → k ∈ C) {m : Nat}
    {s : Explore κ E} (h : RunInv labels target edge C start m s)
    (hpend : (!s.pending.isEmpty) = true) :
    ∃ s' m', expand labels target edge s = some s' ∧ m' < m ∧
      RunInv labels target edge C start m' s' := by
  obtain ⟨nodes, pending⟩ := s
  cases pending with
  | nil => simp at hpend
  | cons i rest =>
    have hi : i < nodes.length := h.pending_lt i (by simp)
    have hn : nodes[i]? = some nodes[i] := List.getElem?_eq_getElem hi
    generalize nodes[i] = n at hn
    have htarget : ∀ l ∈ labels n.key, target n.key l ∈ C := fun l hl =>
      hclosed _ ((h.inv.reach _ (mem_keys hn)).tail ⟨l, hl, rfl⟩)
    obtain ⟨hinv, hext⟩ := foldl_follow_inv hC (s := ⟨nodes, rest⟩) (labels n.key)
      (fun _ hl => hl) htarget h.inv hn rfl
    have hleft := h.left_le
    simp only [left, List.length_cons] at hleft
    refine ⟨_, left C ⟨nodes, rest⟩, by simp [expand, hn], by simp only [left]; omega, ?_, ?_,
      hext.left_le⟩
    · refine { hinv with dealt_lt := fun _ _ hj => hj.1, edges := fun j n' hn' l hl hj => ?_ }
      refine hinv.edges j n' hn' l hl ?_
      have hjlt := (hext.new_pending j hj.1).resolve_right hj.2
      by_cases hji : j = i
      · subst hji
        obtain ⟨n'', hn'', hkey⟩ := hext.getElem hn
        obtain rfl : n' = n'' := by simpa [hn'] using hn''
        exact Or.inr ⟨rfl, hkey ▸ hl⟩
      · refine Or.inl ⟨hjlt, fun hmem => hj.2 ?_⟩
        exact hext.pending_sub ((List.mem_cons.mp hmem).resolve_left hji)
    · exact hext.pending_lt fun j hj => h.pending_lt j (by simp [hj])

/-- A worklist over finitely many keys comes to its end. -/
theorem run_explored (start : κ)
    (hC : {k | Relation.ReflTransGen (Leads labels target) start k}.Finite) :
    ∃ nodes m, (∀ fuel, m < fuel → run labels target edge start fuel = some ⟨nodes, []⟩) ∧
      Explored labels target edge start nodes := by
  obtain ⟨m, hstart⟩ : ∃ m, RunInv labels target edge
      {k | Relation.ReflTransGen (Leads labels target) start k} start m ⟨[⟨start, []⟩], [0]⟩ := by
    refine ⟨_, ⟨by simp [keys], by simp [keys], ?_, fun i _ hi => hi.1, ?_, ?_⟩, by simp, le_rfl⟩
    · rintro k hk
      obtain rfl : k = start := by simpa [keys] using hk
      exact Relation.ReflTransGen.refl
    · intro i n hn l _ hi
      have : i < 1 := by simpa using hi.1
      simp [show i = 0 by omega] at hi
    · intro i n hn e he
      obtain rfl : n = ⟨start, []⟩ := by simpa using List.mem_of_getElem? hn
      simp at he
  obtain ⟨s, m', hs, hdone, hrun⟩ := LoopsTo.total
    (RunInv labels target edge {k | Relation.ReflTransGen (Leads labels target) start k} start)
    (fun m s hs hpend => expand_inv hC (fun _ hk => hk) hs hpend) hstart
  obtain ⟨nodes, pending⟩ := s
  obtain rfl : pending = [] := by simpa using hdone
  exact ⟨nodes, m, hrun, Inv.explored (by simpa using hs.inv)⟩

theorem keys_prefix_follow (i : Nat) (k : κ) (s : Explore κ E) (l : L) :
    keys s.nodes <+: keys (follow target edge i k s l).nodes := by
  unfold follow
  split <;> simp

/-- The first node is where the run starts. -/
theorem run_head {start : κ} {fuel : Nat} {s : Explore κ E}
    (h : run labels target edge start fuel = some s) : (keys s.nodes).head? = some start := by
  have hstep : ∀ s t : Explore κ E, (keys s.nodes).head? = some start →
      (!s.pending.isEmpty) = true → expand labels target edge s = some t →
        (keys t.nodes).head? = some start := by
    intro s t hs _ ht
    unfold expand at ht
    split at ht
    · cases ht
    · next i rest hpending =>
      obtain ⟨n, -, rfl⟩ := Option.map_eq_some_iff.mp ht
      have hfold : ∀ (ls : List L) (u : Explore κ E),
          keys u.nodes <+: keys (ls.foldl (follow target edge i n.key) u).nodes := by
        intro ls
        induction ls with
        | nil => exact fun u => List.prefix_refl _
        | cons l ls ih => exact fun u => (keys_prefix_follow i n.key u l).trans (ih _)
      obtain ⟨t, ht⟩ := hfold (labels n.key) ⟨s.nodes, rest⟩
      rw [← ht]
      simp [hs]
  exact (whileLoop_inv (fun s : Explore κ E => (keys s.nodes).head? = some start) hstep
    (by simp [keys]) h).1

end

end Explore

end FakeLisp

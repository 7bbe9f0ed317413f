import Mathlib.Data.List.Nodup
import Mathlib.Data.List.Perm.Subperm
import Mathlib.Order.Lattice

/-!
# Breadth-first search that keeps a bounded part

At each point of a `Problem` something is found: nodes, each with an edge, and
points at which the search goes on. The search keeps every node and every edge
once, goes on to a depth, and is truncated as soon as a node or an edge does
not fit. `search_outcome` is what comes of it: a search that is not truncated has
kept all that is found within the depth, a truncated one has left something out
and is full, and of both the kept edges are between kept nodes.
-/

namespace Framework.Search

/-! ## The search -/

section

variable {β γ : Type*} [DecidableEq γ]

/-- The list with the element, unless one with its key is there already; `none` if it does not fit. -/
def keep (key : β → γ) (most : ℕ) (b : β) (kept : List β) : Option (List β) :=
  if key b ∈ kept.map key then some kept else if most ≤ kept.length then none else some (kept ++ [b])

end

/-- A node that is found with an edge, and where the search goes on from there, if it does. -/
structure Finding (α ν ε : Type*) where
  node : ν
  edge : ε
  next : Option α

/-- What is found at each point, and how much of it is kept. A point has the id of the node with which it is found. -/
structure Problem (α ν ε ι κ : Type*) where
  nodeId : ν → ι
  edgeKey : ε → κ
  pointId : α → ι
  maxNodes : ℕ
  maxEdges : ℕ
  expand : α → List (Finding α ν ε)
  depth : ℕ
  next_id : ∀ x, ∀ finding ∈ expand x, ∀ y, finding.next = some y → nodeId finding.node = pointId y

structure State (α ν ε : Type*) where
  nodes : List ν
  edges : List ε
  frontier : List (α × ℕ)
  visited : List α
  truncated : Bool

variable {α ν ε ι κ : Type*}

/-- The search before its first turn. -/
def start (root : α) (node : ν) : State α ν ε := ⟨[node], [], [(root, 0)], [root], false⟩

namespace Problem

variable (p : Problem α ν ε ι κ)

section

variable [DecidableEq α] [DecidableEq ι] [DecidableEq κ]

/-- The search goes on at a point that it has not been at, if that is not too deep. -/
def enqueue (d : ℕ) (next : Option α) (s : State α ν ε) : State α ν ε :=
  match next with
  | none => s
  | some y =>
    if d + 1 < p.depth ∧ y ∉ s.visited then
      { s with frontier := s.frontier ++ [(y, d + 1)], visited := s.visited ++ [y] }
    else s

/-- One finding; the state is truncated if its node or its edge does not fit. -/
def take (d : ℕ) (finding : Finding α ν ε) (s : State α ν ε) : State α ν ε :=
  match keep p.nodeId p.maxNodes finding.node s.nodes with
  | none => { s with truncated := true }
  | some nodes =>
    match keep p.edgeKey p.maxEdges finding.edge s.edges with
    | none => { s with nodes := nodes, truncated := true }
    | some edges => p.enqueue d finding.next { s with nodes := nodes, edges := edges }

/-- What is found at a point, up to the first finding that does not fit. -/
def discover (d : ℕ) : List (Finding α ν ε) → State α ν ε → State α ν ε
  | [], s => s
  | finding :: findings, s =>
    let taken := p.take d finding s
    if taken.truncated then taken else discover d findings taken

/-- The search from a state, of at most as many turns. -/
def run : ℕ → State α ν ε → State α ν ε
  | 0, s => s
  | fuel + 1, s =>
    match s.frontier with
    | [] => s
    | (x, d) :: frontier =>
      if s.truncated then s else run fuel (p.discover d (p.expand x) { s with frontier := frontier })

end

/-! ## What is there to find -/

end Problem

/-- The point is reached in so many steps. -/
inductive Within (step : α → α → Prop) (root : α) : ℕ → α → Prop
  | root : Within step root 0 root
  | step {k : ℕ} {x y : α} : Within step root k x → step x y → Within step root (k + 1) y

theorem Within.mem_of_closed {step : α → α → Prop} {root : α} {points : List α} (hroot : root ∈ points)
    (hclosed : ∀ x ∈ points, ∀ y, step x y → y ∈ points) {k : ℕ} {x : α} (h : Within step root k x) : x ∈ points := by
  induction h with
  | root => exact hroot
  | step _ hstep ih => exact hclosed _ ih _ hstep

namespace Problem

variable (p : Problem α ν ε ι κ)

/-- One step of the search. -/
def Step (x y : α) : Prop := ∃ finding ∈ p.expand x, finding.next = some y

/-- It is found at a point within the depth; at the first one in any case. -/
def FoundAt (root x : α) (finding : Finding α ν ε) : Prop :=
  ∃ k, Within p.Step root k x ∧ k < max p.depth 1 ∧ finding ∈ p.expand x

def Kept (s : State α ν ε) (finding : Finding α ν ε) : Prop :=
  p.nodeId finding.node ∈ s.nodes.map p.nodeId ∧ p.edgeKey finding.edge ∈ s.edges.map p.edgeKey

/-- All that was kept was found, once, and an edge was kept with both nodes that it was found between. -/
structure Sound (root : α) (node : ν) (s : State α ν ε) : Prop where
  ids_nodup : (s.nodes.map p.nodeId).Nodup
  keys_nodup : (s.edges.map p.edgeKey).Nodup
  root_mem : node ∈ s.nodes
  nodes_found : ∀ n ∈ s.nodes, n = node ∨ ∃ x finding, p.FoundAt root x finding ∧ finding.node = n
  edges_found : ∀ e ∈ s.edges, ∃ x finding, p.FoundAt root x finding ∧ finding.edge = e ∧
    p.pointId x ∈ s.nodes.map p.nodeId ∧ p.nodeId finding.node ∈ s.nodes.map p.nodeId
  visited_mem : ∀ x ∈ s.visited, p.pointId x ∈ s.nodes.map p.nodeId
  nodes_le : s.nodes.length ≤ p.maxNodes
  edges_le : s.edges.length ≤ p.maxEdges

end Problem

/-! ## One finding -/

section

variable {β γ : Type*} [DecidableEq γ] {key : β → γ} {most : ℕ} {b : β} {kept kept' : List β}

theorem keep_some (h : keep key most b kept = some kept') :
    key b ∈ kept'.map key ∧ kept ⊆ kept' ∧ (∀ c ∈ kept', c ∈ kept ∨ c = b) ∧
      ((kept.map key).Nodup → (kept'.map key).Nodup) ∧ (kept.length ≤ most → kept'.length ≤ most) := by
  unfold keep at h
  split at h
  · next hmem =>
    obtain rfl := Option.some.inj h
    exact ⟨hmem, List.Subset.refl _, fun _ hc => .inl hc, id, id⟩
  · next hmem =>
    split at h
    · cases h
    · next hfull =>
      obtain rfl := Option.some.inj h
      refine ⟨List.mem_map_of_mem (List.mem_append_right _ (List.mem_singleton_self b)),
        List.subset_append_left _ _, fun c hc => ?_, fun hnodup => ?_, fun _ => ?_⟩
      · exact (List.mem_append.mp hc).imp_right List.mem_singleton.mp
      · rw [List.map_append, List.map_singleton, List.nodup_append]
        refine ⟨hnodup, List.nodup_singleton _, fun c hc c' hc' heq => hmem ?_⟩
        rw [List.mem_singleton.mp hc'] at heq
        exact heq ▸ hc
      · rw [List.length_append, List.length_singleton]
        omega

theorem keep_none (h : keep key most b kept = none) : key b ∉ kept.map key ∧ most ≤ kept.length := by
  unfold keep at h
  split at h
  · cases h
  · next hmem =>
    split at h
    · next hfull => exact ⟨hmem, hfull⟩
    · cases h

end

namespace Problem

variable {p : Problem α ν ε ι κ} {root x : α} {node : ν} {s t : State α ν ε} {d : ℕ} {finding : Finding α ν ε}
  {findings more : List (Finding α ν ε)} {points others : List α}

theorem Kept.mono (h : p.Kept s finding) (hnodes : s.nodes ⊆ t.nodes) (hedges : s.edges ⊆ t.edges) :
    p.Kept t finding := ⟨List.map_subset _ hnodes h.1, List.map_subset _ hedges h.2⟩

/-- What a state has in addition to another one: of the findings, and points of the depth. -/
structure Explored (p : Problem α ν ε ι κ) (d : ℕ) (findings : List (Finding α ν ε)) (s t : State α ν ε)
    (points : List α) : Prop where
  visited : t.visited = s.visited ++ points
  frontier : t.frontier = s.frontier ++ points.map fun y => (y, d)
  fresh : s.visited.Nodup → t.visited.Nodup
  depth : ∀ y ∈ points, d < p.depth
  reached : ∀ y ∈ points, ∃ finding ∈ findings, finding.next = some y ∧ p.nodeId finding.node ∈ t.nodes.map p.nodeId
  nodes : s.nodes ⊆ t.nodes
  edges : s.edges ⊆ t.edges
  nodes_from : ∀ n ∈ t.nodes, n ∈ s.nodes ∨ ∃ finding ∈ findings, finding.node = n
  edges_from : ∀ e ∈ t.edges, e ∈ s.edges ∨
    ∃ finding ∈ findings, finding.edge = e ∧ p.nodeId finding.node ∈ t.nodes.map p.nodeId
  ids_nodup : (s.nodes.map p.nodeId).Nodup → (t.nodes.map p.nodeId).Nodup
  keys_nodup : (s.edges.map p.edgeKey).Nodup → (t.edges.map p.edgeKey).Nodup
  nodes_le : s.nodes.length ≤ p.maxNodes → t.nodes.length ≤ p.maxNodes
  edges_le : s.edges.length ≤ p.maxEdges → t.edges.length ≤ p.maxEdges

/-- All findings are kept and the search goes on where they say. -/
structure Complete (p : Problem α ν ε ι κ) (d : ℕ) (findings : List (Finding α ν ε)) (t : State α ν ε) : Prop where
  truncated : t.truncated = false
  kept : ∀ finding ∈ findings, p.Kept t finding
  visited : ∀ finding ∈ findings, ∀ y, finding.next = some y → d < p.depth → y ∈ t.visited

/-- The state is full, and a finding is not kept. -/
structure Cut (p : Problem α ν ε ι κ) (findings : List (Finding α ν ε)) (t : State α ν ε) : Prop where
  truncated : t.truncated = true
  lost : ∃ finding ∈ findings, ¬ p.Kept t finding
  full : p.maxNodes ≤ t.nodes.length ∨ p.maxEdges ≤ t.edges.length

theorem Explored.refl (p : Problem α ν ε ι κ) (d : ℕ) (findings : List (Finding α ν ε)) (s : State α ν ε) :
    Explored p d findings s s [] where
  visited := (List.append_nil _).symm
  frontier := (List.append_nil _).symm
  fresh := id
  depth := nofun
  reached := nofun
  nodes := List.Subset.refl _
  edges := List.Subset.refl _
  nodes_from _ h := .inl h
  edges_from _ h := .inl h
  ids_nodup := id
  keys_nodup := id
  nodes_le := id
  edges_le := id

theorem Explored.trans {u : State α ν ε} (h : Explored p d findings s t points) (h' : Explored p d more t u others) :
    Explored p d (findings ++ more) s u (points ++ others) where
  visited := by rw [h'.visited, h.visited, List.append_assoc]
  frontier := by rw [h'.frontier, h.frontier, List.append_assoc, List.map_append]
  fresh := h'.fresh ∘ h.fresh
  depth y hy := (List.mem_append.mp hy).elim (h.depth y) (h'.depth y)
  reached y hy := by
    rcases List.mem_append.mp hy with hy | hy
    · obtain ⟨finding, hmem, hnext, hid⟩ := h.reached y hy
      exact ⟨finding, List.mem_append_left _ hmem, hnext, List.map_subset _ h'.nodes hid⟩
    · obtain ⟨finding, hmem, hrest⟩ := h'.reached y hy
      exact ⟨finding, List.mem_append_right _ hmem, hrest⟩
  nodes := List.Subset.trans h.nodes h'.nodes
  edges := List.Subset.trans h.edges h'.edges
  nodes_from n hn := by
    rcases h'.nodes_from n hn with hn | ⟨finding, hmem, hnode⟩
    · exact (h.nodes_from n hn).imp_right fun ⟨finding, hmem, hnode⟩ =>
        ⟨finding, List.mem_append_left _ hmem, hnode⟩
    · exact .inr ⟨finding, List.mem_append_right _ hmem, hnode⟩
  edges_from e he := by
    rcases h'.edges_from e he with he | ⟨finding, hmem, hedge⟩
    · exact (h.edges_from e he).imp_right fun ⟨finding, hmem, hedge, hid⟩ =>
        ⟨finding, List.mem_append_left _ hmem, hedge, List.map_subset _ h'.nodes hid⟩
    · exact .inr ⟨finding, List.mem_append_right _ hmem, hedge⟩
  ids_nodup := h'.ids_nodup ∘ h.ids_nodup
  keys_nodup := h'.keys_nodup ∘ h.keys_nodup
  nodes_le := h'.nodes_le ∘ h.nodes_le
  edges_le := h'.edges_le ∘ h.edges_le

theorem Explored.mono (h : Explored p d findings s t points) (hsubset : findings ⊆ more) :
    Explored p d more s t points :=
  { h with
    reached := fun y hy =>
      let ⟨finding, hmem, hrest⟩ := h.reached y hy
      ⟨finding, hsubset hmem, hrest⟩
    nodes_from := fun n hn => (h.nodes_from n hn).imp_right fun ⟨finding, hmem, hnode⟩ =>
      ⟨finding, hsubset hmem, hnode⟩
    edges_from := fun e he => (h.edges_from e he).imp_right fun ⟨finding, hmem, hedge⟩ =>
      ⟨finding, hsubset hmem, hedge⟩ }

/-- The nodes and edges with those of a finding, as far as they fit; the search has not gone on yet. -/
theorem explored_kept [DecidableEq ι] [DecidableEq κ] {nodes : List ν} {edges : List ε} {truncated : Bool}
    (hnodes : keep p.nodeId p.maxNodes finding.node s.nodes = some nodes)
    (hedges : edges = s.edges ∨ keep p.edgeKey p.maxEdges finding.edge s.edges = some edges) :
    Explored p d [finding] s { s with nodes := nodes, edges := edges, truncated := truncated } [] := by
  obtain ⟨hnode, hsubset, hfrom, hnodup, hle⟩ := keep_some hnodes
  have hedges' : s.edges ⊆ edges ∧ (∀ e ∈ edges, e ∈ s.edges ∨ e = finding.edge) ∧
      ((s.edges.map p.edgeKey).Nodup → (edges.map p.edgeKey).Nodup) ∧
      (s.edges.length ≤ p.maxEdges → edges.length ≤ p.maxEdges) := by
    rcases hedges with rfl | hedges
    · exact ⟨List.Subset.refl _, fun _ h => .inl h, id, id⟩
    · exact (keep_some hedges).2
  exact
    { Explored.refl p d [finding] s with
      reached := nofun
      nodes := hsubset
      edges := hedges'.1
      nodes_from := fun n hn => (hfrom n hn).imp_right fun heq => ⟨finding, List.mem_singleton_self _, heq.symm⟩
      edges_from := fun e he => (hedges'.2.1 e he).imp_right fun heq =>
        ⟨finding, List.mem_singleton_self _, heq.symm, hnode⟩
      ids_nodup := hnodup
      keys_nodup := hedges'.2.2.1
      nodes_le := hle
      edges_le := hedges'.2.2.2 }

/-- The search goes on where a finding says. -/
theorem explored_enqueue [DecidableEq α] (h : p.nodeId finding.node ∈ s.nodes.map p.nodeId) :
    ∃ points, Explored p (d + 1) [finding] s (p.enqueue d finding.next s) points ∧
      ∀ y, finding.next = some y → d + 1 < p.depth → y ∈ (p.enqueue d finding.next s).visited := by
  have hrefl := Explored.refl p (d + 1) [finding] s
  unfold enqueue
  split
  · next hnext => exact ⟨[], hrefl, fun y hy => absurd (hnext.symm.trans hy) nofun⟩
  · next y hnext =>
    split
    · next hnew =>
      have hvisited (hnodup : s.visited.Nodup) : (s.visited ++ [y]).Nodup :=
        List.nodup_append.mpr ⟨hnodup, List.nodup_singleton y, fun a ha b hb heq =>
          hnew.2 (by rw [← List.mem_singleton.mp hb, ← heq]; exact ha)⟩
      refine ⟨[y], ?_, fun z hz _ => ?_⟩
      · exact
          { hrefl with
            visited := rfl
            frontier := rfl
            fresh := hvisited
            depth := fun _ _ => hnew.1
            reached := fun z hz => ⟨finding, List.mem_singleton_self _, by rw [hnext, List.mem_singleton.mp hz], h⟩ }
      · obtain rfl := Option.some.inj (hnext.symm.trans hz)
        exact List.mem_append_right _ (List.mem_singleton_self y)
    · next hold =>
      refine ⟨[], hrefl, fun z hz hdepth => ?_⟩
      obtain rfl := Option.some.inj (hnext.symm.trans hz)
      exact Decidable.byContradiction fun hmem => hold ⟨hdepth, hmem⟩

variable [DecidableEq α] [DecidableEq ι] [DecidableEq κ]

omit [DecidableEq ι] [DecidableEq κ] in
theorem enqueue_truncated (next : Option α) : (p.enqueue d next s).truncated = s.truncated := by
  unfold enqueue
  split
  · rfl
  · split <;> rfl

theorem take_spec (h : s.truncated = false) (d : ℕ) (finding : Finding α ν ε) :
    ∃ points, Explored p (d + 1) [finding] s (p.take d finding s) points ∧
      (Complete p (d + 1) [finding] (p.take d finding s) ∨ Cut p [finding] (p.take d finding s)) := by
  unfold take
  split
  · next hnodes =>
    obtain ⟨hmem, hfull⟩ := keep_none hnodes
    refine ⟨[], { Explored.refl p (d + 1) [finding] s with }, .inr
      ⟨rfl, ⟨finding, ?_, fun h => hmem h.1⟩, .inl hfull⟩⟩
    exact List.mem_singleton_self _
  · next nodes hnodes =>
    split
    · next hedges =>
      obtain ⟨hmem, hfull⟩ := keep_none hedges
      refine ⟨[], explored_kept hnodes (.inl rfl), .inr ⟨rfl, ⟨finding, ?_, fun h => hmem h.2⟩, .inr hfull⟩⟩
      exact List.mem_singleton_self _
    · next edges hedges =>
      have hnode := (keep_some hnodes).1
      have hkept : Explored p (d + 1) [finding] s { s with nodes := nodes, edges := edges } [] :=
        explored_kept hnodes (.inr hedges)
      obtain ⟨points, hpoints, hvisited⟩ :=
        explored_enqueue (d := d) (s := { s with nodes := nodes, edges := edges }) hnode
      refine ⟨points, (hkept.trans hpoints).mono (by simp), .inl ⟨?_, ?_, ?_⟩⟩
      · exact (enqueue_truncated _).trans h
      · refine List.forall_mem_singleton.mpr ?_
        have hedge : p.Kept { s with nodes := nodes, edges := edges } finding := ⟨hnode, (keep_some hedges).1⟩
        exact hedge.mono hpoints.nodes hpoints.edges
      · exact List.forall_mem_singleton.mpr hvisited

/-! ## What is found at a point -/

theorem discover_spec (h : s.truncated = false) (d : ℕ) (findings : List (Finding α ν ε)) :
    ∃ points, Explored p (d + 1) findings s (p.discover d findings s) points ∧
      (Complete p (d + 1) findings (p.discover d findings s) ∨ Cut p findings (p.discover d findings s)) := by
  induction findings generalizing s with
  | nil => exact ⟨[], Explored.refl .., .inl ⟨h, nofun, nofun⟩⟩
  | cons finding findings ih =>
    obtain ⟨points, hpoints, htaken⟩ := take_spec (p := p) h d finding
    have hsub : [finding] ⊆ finding :: findings := List.cons_subset_cons _ (List.nil_subset _)
    unfold discover
    dsimp only
    rcases htaken with hcomplete | hcut
    · rw [hcomplete.truncated, if_neg Bool.false_ne_true]
      obtain ⟨others, hothers, hrest⟩ := ih hcomplete.truncated
      refine ⟨points ++ others, hpoints.trans hothers, hrest.imp (fun hrest => ?_) fun hrest => ?_⟩
      · refine ⟨hrest.truncated, List.forall_mem_cons.mpr ⟨?_, hrest.kept⟩,
          List.forall_mem_cons.mpr ⟨fun y hy hdepth => ?_, hrest.visited⟩⟩
        · exact (hcomplete.kept finding (List.mem_singleton_self _)).mono hothers.nodes hothers.edges
        · rw [hothers.visited]
          exact List.mem_append_left _ (hcomplete.visited finding (List.mem_singleton_self _) y hy hdepth)
      · obtain ⟨lost, hmem, hlost⟩ := hrest.lost
        exact ⟨hrest.truncated, ⟨lost, List.mem_cons_of_mem _ hmem, hlost⟩, hrest.full⟩
    · rw [hcut.truncated, if_pos rfl]
      obtain ⟨lost, hmem, hlost⟩ := hcut.lost
      exact ⟨points, hpoints.mono hsub, .inr ⟨hcut.truncated, ⟨lost, hsub hmem, hlost⟩, hcut.full⟩⟩

/-! ## The turns -/

omit [DecidableEq α] [DecidableEq ι] [DecidableEq κ] in
theorem Sound.extend (h : Sound p root node s) (hx : x ∈ s.visited)
    (hfound : ∀ finding ∈ p.expand x, p.FoundAt root x finding)
    (hexplored : Explored p d (p.expand x) s t points) : Sound p root node t where
  ids_nodup := hexplored.ids_nodup h.ids_nodup
  keys_nodup := hexplored.keys_nodup h.keys_nodup
  root_mem := hexplored.nodes h.root_mem
  nodes_found n hn := by
    rcases hexplored.nodes_from n hn with hn | ⟨finding, hmem, hnode⟩
    · exact h.nodes_found n hn
    · exact .inr ⟨x, finding, hfound finding hmem, hnode⟩
  edges_found e he := by
    have hids := List.map_subset p.nodeId hexplored.nodes
    rcases hexplored.edges_from e he with he | ⟨finding, hmem, hedge, hid⟩
    · obtain ⟨y, finding, hfinding, hedge, hy, hid⟩ := h.edges_found e he
      exact ⟨y, finding, hfinding, hedge, hids hy, hids hid⟩
    · exact ⟨x, finding, hfound finding hmem, hedge, hids (h.visited_mem x hx), hid⟩
  visited_mem y hy := by
    rw [hexplored.visited] at hy
    rcases List.mem_append.mp hy with hy | hy
    · exact List.map_subset p.nodeId hexplored.nodes (h.visited_mem y hy)
    · obtain ⟨finding, hmem, hnext, hid⟩ := hexplored.reached y hy
      exact p.next_id x finding hmem y hnext ▸ hid
  nodes_le := hexplored.nodes_le h.nodes_le
  edges_le := hexplored.edges_le h.edges_le

/-- The search so far: all is kept that is found at the points it is done with,
and it is done with nearer ones first. -/
structure Progress (p : Problem α ν ε ι κ) (root : α) (s : State α ν ε) (done : List (α × ℕ)) : Prop where
  visited : s.visited = (done ++ s.frontier).map Prod.fst
  fresh : s.visited.Nodup
  within : ∀ y ∈ done ++ s.frontier, Within p.Step root y.2 y.1 ∧ y.2 < max p.depth 1
  root_mem : (root, 0) ∈ done ++ s.frontier
  sorted : s.frontier.Pairwise fun y z => y.2 ≤ z.2
  level : ∀ y ∈ done ++ s.frontier, ∀ z ∈ s.frontier, y.2 ≤ z.2 + 1
  kept : ∀ y ∈ done, ∀ finding ∈ p.expand y.1, p.Kept s finding
  next : ∀ y ∈ done, ∀ finding ∈ p.expand y.1, ∀ z, finding.next = some z → y.2 + 1 < p.depth →
    ∃ k ≤ y.2 + 1, (z, k) ∈ done ++ s.frontier

section

variable {done frontier : List (α × ℕ)}

omit [DecidableEq α] [DecidableEq ι] [DecidableEq κ]

theorem Progress.found (h : Progress p root s done) (hfrontier : s.frontier = (x, d) :: frontier) :
    ∀ finding ∈ p.expand x, p.FoundAt root x finding := fun _ hmem =>
  let ⟨hwithin, hdepth⟩ := h.within (x, d) (by rw [hfrontier]; exact List.mem_append_right _ List.mem_cons_self)
  ⟨d, hwithin, hdepth, hmem⟩

theorem Progress.turn (h : Progress p root s done) (hfrontier : s.frontier = (x, d) :: frontier)
    (hexplored : Explored p (d + 1) (p.expand x) { s with frontier := frontier } t points)
    (hcomplete : Complete p (d + 1) (p.expand x) t) : Progress p root t (done ++ [(x, d)]) := by
  have hhead : (x, d) ∈ s.frontier := hfrontier ▸ List.mem_cons_self
  have hrest : frontier ⊆ s.frontier := hfrontier ▸ List.subset_cons_self _ _
  have hfrontier' : t.frontier = frontier ++ points.map fun y => (y, d + 1) := hexplored.frontier
  have hall : done ++ [(x, d)] ++ t.frontier = done ++ s.frontier ++ points.map fun y => (y, d + 1) := by
    rw [hfrontier', hfrontier]
    simp only [List.append_assoc, List.cons_append, List.nil_append]
  have hlevel : ∀ y ∈ done ++ s.frontier, y.2 ≤ d + 1 := fun y hy => h.level y hy (x, d) hhead
  have hsorted : ∀ z ∈ frontier, d ≤ z.2 := (List.pairwise_cons.mp (hfrontier ▸ h.sorted)).1
  have hvisited : t.visited = (done ++ [(x, d)] ++ t.frontier).map Prod.fst := by
    rw [hall, List.map_append, ← h.visited, hexplored.visited, List.map_map]
    exact congrArg _ (List.map_id _).symm
  refine ⟨hvisited, hexplored.fresh h.fresh, fun y hy => ?_, ?_, ?_, fun y hy z hz => ?_, fun y hy => ?_, ?_⟩
  · rw [hall] at hy
    rcases List.mem_append.mp hy with hy | hy
    · exact h.within y hy
    · obtain ⟨y, hmem', rfl⟩ := List.mem_map.mp hy
      obtain ⟨finding, hmem, hnext, -⟩ := hexplored.reached y hmem'
      refine ⟨.step (h.within (x, d) (List.mem_append_right _ hhead)).1 ⟨finding, hmem, hnext⟩, ?_⟩
      exact lt_of_lt_of_le (hexplored.depth y hmem') (le_max_left _ _)
  · rw [hall]
    exact List.mem_append_left _ h.root_mem
  · rw [hfrontier', List.pairwise_append]
    refine ⟨(List.pairwise_cons.mp (hfrontier ▸ h.sorted)).2, List.pairwise_map.mpr ?_, fun y hy z hz => ?_⟩
    · exact List.pairwise_of_forall fun _ _ => le_refl _
    · obtain ⟨z, -, rfl⟩ := List.mem_map.mp hz
      exact hlevel y (List.mem_append_right _ (hrest hy))
  · rw [hall] at hy
    rw [hfrontier'] at hz
    rcases List.mem_append.mp hy with hy | hy <;> rcases List.mem_append.mp hz with hz | hz
    · exact h.level y hy z (hrest hz)
    · obtain ⟨z, -, rfl⟩ := List.mem_map.mp hz
      exact Nat.le_succ_of_le (hlevel y hy)
    · obtain ⟨y, -, rfl⟩ := List.mem_map.mp hy
      exact Nat.succ_le_succ (hsorted z hz)
    · obtain ⟨y, -, rfl⟩ := List.mem_map.mp hy
      obtain ⟨z, -, rfl⟩ := List.mem_map.mp hz
      exact Nat.le_succ _
  · rcases List.mem_append.mp hy with hy | hy
    · exact fun finding hmem => (h.kept y hy finding hmem).mono hexplored.nodes hexplored.edges
    · rw [List.mem_singleton.mp hy]
      exact hcomplete.kept
  · intro y hy finding hmem z hnext hdepth
    rw [hall]
    rcases List.mem_append.mp hy with hy | hy
    · obtain ⟨k, hk, hz⟩ := h.next y hy finding hmem z hnext hdepth
      exact ⟨k, hk, List.mem_append_left _ hz⟩
    · obtain rfl := List.mem_singleton.mp hy
      have hz := hcomplete.visited finding hmem z hnext hdepth
      rw [hvisited, hall, List.mem_map] at hz
      obtain ⟨⟨z, k⟩, hz, rfl⟩ := hz
      refine ⟨k, ?_, hz⟩
      rcases List.mem_append.mp hz with hz | hz
      · exact hlevel _ hz
      · obtain ⟨z', -, heq⟩ := List.mem_map.mp hz
        exact (congrArg Prod.snd heq).symm.le

/-- A search with nothing left to do has been at all points of the depth, at none later than it could. -/
theorem Progress.closed (h : Progress p root s done) (hfrontier : s.frontier = []) {k : ℕ} {y : α}
    (hwithin : Within p.Step root k y) (hdepth : k < max p.depth 1) : ∃ e ≤ k, (y, e) ∈ done := by
  have hall : done ++ s.frontier = done := by rw [hfrontier, List.append_nil]
  induction hwithin with
  | root => exact ⟨0, le_refl 0, hall ▸ h.root_mem⟩
  | step _ hstep ih =>
    obtain ⟨e, he, hmem⟩ := ih (by omega)
    obtain ⟨finding, hfinding, hnext⟩ := hstep
    obtain ⟨e', he', hmem'⟩ := h.next _ hmem finding hfinding _ hnext (by omega)
    exact ⟨e', by omega, hall ▸ hmem'⟩

/-- It is done with as many points as there are when none is left to go on at. -/
theorem Progress.done_le {points : List α} (h : Progress p root s done)
    (hpoints : ∀ k y, Within p.Step root k y → y ∈ points) : done.length + s.frontier.length ≤ points.length := by
  have hsubset : s.visited ⊆ points := by
    rw [h.visited]
    intro y hy
    obtain ⟨pair, hmem, rfl⟩ := List.mem_map.mp hy
    exact hpoints pair.2 pair.1 (h.within pair hmem).1
  have hle := (List.subperm_of_subset h.fresh hsubset).length_le
  rwa [h.visited, List.length_map, List.length_append] at hle

end

/-! ## The whole search -/

/-- All that is found within the depth is kept. -/
def KeepsAll (p : Problem α ν ε ι κ) (root : α) (s : State α ν ε) : Prop :=
  ∀ x finding, p.FoundAt root x finding → p.Kept s finding

/-- Something found within the depth is not kept, for it does not fit. -/
structure LeavesOut (p : Problem α ν ε ι κ) (root : α) (s : State α ν ε) : Prop where
  lost : ∃ x finding, p.FoundAt root x finding ∧ ¬ p.Kept s finding
  full : p.maxNodes ≤ s.nodes.length ∨ p.maxEdges ≤ s.edges.length

/-- What comes of a search. -/
structure Outcome (p : Problem α ν ε ι κ) (root : α) (node : ν) (s : State α ν ε) : Prop where
  sound : Sound p root node s
  whole : s.truncated = false → KeepsAll p root s
  cut : s.truncated = true → LeavesOut p root s

theorem run_truncated (h : s.truncated = true) (fuel : ℕ) : p.run fuel s = s := by
  cases fuel with
  | zero => rfl
  | succ fuel =>
    unfold run
    split
    · rfl
    · exact if_pos h

theorem run_outcome {points : List α} {done : List (α × ℕ)} (hpoints : ∀ k y, Within p.Step root k y → y ∈ points)
    (h : Progress p root s done) (hsound : Sound p root node s) (htruncated : s.truncated = false) {fuel : ℕ}
    (hfuel : points.length ≤ fuel + done.length) : Outcome p root node (p.run fuel s) := by
  have hdone (hfrontier : s.frontier = []) : Outcome p root node s := by
    refine ⟨hsound, fun _ y finding ⟨k, hwithin, hdepth, hmem⟩ => ?_, fun h => absurd (htruncated.symm.trans h) nofun⟩
    obtain ⟨e, -, hmem'⟩ := h.closed hfrontier hwithin hdepth
    exact h.kept _ hmem' finding hmem
  induction fuel generalizing s done with
  | zero =>
    have hle := h.done_le hpoints
    exact hdone (List.eq_nil_of_length_eq_zero (by omega))
  | succ fuel ih =>
    unfold run
    split
    · next hfrontier => exact hdone hfrontier
    · next y d frontier hfrontier =>
      rw [if_neg (by rw [htruncated]; exact Bool.false_ne_true)]
      obtain ⟨points', hexplored, hturn⟩ :=
        discover_spec (p := p) (s := { s with frontier := frontier }) htruncated d (p.expand y)
      have hy : y ∈ s.visited := by
        rw [h.visited, hfrontier]
        exact List.mem_map_of_mem (List.mem_append_right done List.mem_cons_self)
      have hsound' : Sound p root node { s with frontier := frontier } := { hsound with }
      have hsound'' := hsound'.extend hy (h.found hfrontier) hexplored
      rcases hturn with hcomplete | hcut
      · have hprogress := h.turn hfrontier hexplored hcomplete
        refine ih hprogress hsound'' hcomplete.truncated ?_ fun hnil => ?_
        · rw [List.length_append, List.length_singleton]
          omega
        · refine ⟨hsound'', fun _ z finding ⟨k, hwithin, hdepth, hmem⟩ => ?_,
            fun h => absurd (hcomplete.truncated.symm.trans h) nofun⟩
          obtain ⟨e, -, hmem'⟩ := hprogress.closed hnil hwithin hdepth
          exact hprogress.kept _ hmem' finding hmem
      · rw [run_truncated hcut.truncated]
        refine ⟨hsound'', fun h => absurd (hcut.truncated.symm.trans h) nofun, fun _ => ⟨?_, hcut.full⟩⟩
        obtain ⟨finding, hmem, hlost⟩ := hcut.lost
        exact ⟨y, finding, h.found hfrontier finding hmem, hlost⟩

/-- A search with as many turns as there are points to be at. -/
theorem search_outcome {points : List α} (hpoints : ∀ k y, Within p.Step root k y → y ∈ points)
    (hroot : p.nodeId node = p.pointId root) (hmost : 0 < p.maxNodes) :
    Outcome p root node (p.run points.length (start root node)) := by
  have hprogress : Progress p root (start root node) [] :=
    { visited := rfl
      fresh := List.nodup_singleton root
      within := List.forall_mem_singleton.mpr ⟨.root, lt_of_lt_of_le Nat.one_pos (le_max_right _ _)⟩
      root_mem := List.mem_singleton_self _
      sorted := List.pairwise_singleton _ _
      level := List.forall_mem_singleton.mpr (List.forall_mem_singleton.mpr (Nat.zero_le _))
      kept := nofun
      next := nofun }
  have hsound : Sound p root node (start root node) :=
    { ids_nodup := List.nodup_singleton _
      keys_nodup := List.nodup_nil
      root_mem := List.mem_singleton_self _
      nodes_found := fun _ hn => .inl (List.mem_singleton.mp hn)
      edges_found := nofun
      visited_mem := List.forall_mem_singleton.mpr (hroot ▸ List.mem_singleton_self _)
      nodes_le := hmost
      edges_le := Nat.zero_le _ }
  exact run_outcome hpoints hprogress hsound rfl (Nat.le_add_right _ _)

end Problem

end Framework.Search

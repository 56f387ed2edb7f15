import ScriptMin.Proofs.Store.Links
import ScriptMin.Proofs.Tree.Formed

/-!
Sound stores. The links of parents and children agree, the root is a script, and every node
is formed as its kind asks for. Nodes that are not attached are sound as well, since passes
attach them again; that the parents of such a node lead somewhere is not asked for.
-/

namespace ScriptMin.Store

/-- The tree at a node is a pattern. -/
inductive IsPattern (s : Store) : NodeId → Prop where
  | leaf {id : NodeId} : s.kind id = .identifier ∨ s.kind id = .hole → IsPattern s id
  | array {id : NodeId} :
      s.kind id = .arrayInit → (∀ c ∈ s.children id, IsPattern s c) → IsPattern s id
  | object {id : NodeId} :
      s.kind id = .objectInit → (∀ c ∈ s.children id, s.kind c = .propertyInit) →
      (∀ c ∈ s.children id, ∀ value, (s.children c)[1]? = some value → IsPattern s value) →
      IsPattern s id

/-- A node is formed as its kind asks for. -/
structure Formed (s : Store) (id : NodeId) : Prop where
  complete : (s.head id).Complete
  hosts : ∀ i c, (s.children id)[i]? = some c → (s.head id).Hosts i (s.head c)
  roles : (s.kind id).hasRoles → (s.children id).Pairwise fun a b => s.role? a ≠ s.role? b
  patterns : ∀ c ∈ s.children id, (s.head id).binds (s.head c) → s.IsPattern c

def Owner (s : Store) (id : NodeId) : Prop := id = s.root ∨ s.kind id = .function

/-- The links agree, all nodes are formed, and no node has a scope that owns no body. -/
structure Sound (s : Store) : Prop extends Linked s where
  root_kind : s.kind s.root = .script
  formed : ∀ id, s.Formed id
  owner_of_scope? : ∀ id, s.scope? id ≠ none → s.Owner id

/-- Owners of bodies keep being so where their kinds stay. -/
theorem Owner.of_eq {s s' : Store} {id : NodeId} (h : s.Owner id) (hroot : s'.root = s.root)
    (hkind : s'.kind id = s.kind id) : s'.Owner id := by
  rwa [Owner, hroot, hkind]

/-- A node is the key of a property. -/
def IsKey (s : Store) (id : NodeId) : Prop :=
  ∃ property, s.kind property = .propertyInit ∧ (s.children property)[0]? = some id

variable {s s' : Store} {id parent child old new : NodeId}

theorem kind_of_size_le (h : s.size ≤ id) : s.kind id = .script := by
  rw [kind, head, node_of_size_le h]
  rfl

theorem lt_of_kind (h : s.kind id ≠ .script) : id < s.size := by
  by_contra hid
  exact h (kind_of_size_le (Nat.le_of_not_lt hid))

theorem lt_of_scope? (h : s.scope? id ≠ none) : id < s.size := by
  by_contra hid
  rw [scope?, node_of_size_le (Nat.le_of_not_lt hid)] at h
  exact h rfl

theorem formed_of_size_le (h : s.size ≤ id) : s.Formed id := by
  have hchildren := children_of_size_le h
  refine ⟨?_, ?_, ?_, ?_⟩
  · rw [head, node_of_size_le h]
    exact ⟨nofun, nofun, nofun, nofun, nofun⟩
  · intro i c hc
    rw [hchildren] at hc
    cases hc
  · intro _
    rw [hchildren]
    exact .nil
  · intro c hc
    rw [hchildren] at hc
    cases hc

theorem IsPattern.inPattern (h : s.IsPattern id) : (s.kind id).inPattern := by
  cases h with
  | leaf hkind => rcases hkind with hkind | hkind <;> rw [hkind] <;> rfl
  | array hkind => rw [hkind]; rfl
  | object hkind => rw [hkind]; rfl

theorem Owner.lt (h : s.Owner id) (hs : s.Linked) : id < s.size := by
  rcases h with rfl | hkind
  · exact hs.root_lt
  · exact lt_of_kind (by simp [hkind])

namespace Sound

theorem ne_root_of_kind (h : s.Sound) (hkind : s.kind id ≠ .script) : id ≠ s.root := by
  rintro rfl
  exact hkind h.root_kind

theorem isKey_head (h : s.Sound) (hkey : s.IsKey id) : (s.kind id).isKey ∧ s.role? id = none := by
  obtain ⟨property, hkind, hfirst⟩ := hkey
  have hosts := (h.formed property).hosts 0 id hfirst
  rw [Head.Hosts, show (s.head property).kind = .propertyInit from hkind] at hosts
  rcases hosts with ⟨-, hosts⟩ | hosts
  · exact hosts
  · cases hosts

theorem isKey_kind (h : s.Sound) (hkey : s.IsKey id) : (s.kind id).isKey := (h.isKey_head hkey).1

theorem isKey_role (h : s.Sound) (hkey : s.IsKey id) : s.role? id = none := (h.isKey_head hkey).2

/-- A property has a key and perhaps a value. -/
theorem length_propertyInit (h : s.Sound) (hkind : s.kind id = .propertyInit) :
    (s.children id).length ≤ 2 := by
  by_contra hlength
  have hthird := List.getElem?_eq_getElem (show 2 < (s.children id).length by omega)
  have hosts := (h.formed id).hosts 2 _ hthird
  rw [Head.Hosts, show (s.head id).kind = .propertyInit from hkind] at hosts
  omega

theorem hosts (h : s.Sound) (hc : child ∈ s.children id) :
    ∃ i, (s.children id)[i]? = some child ∧ (s.head id).Hosts i (s.head child) := by
  obtain ⟨i, hi, rfl⟩ := List.getElem_of_mem hc
  exact ⟨i, List.getElem?_eq_getElem hi,
    (h.formed id).hosts i _ (List.getElem?_eq_getElem hi)⟩

/-- The children of a function are its parameters and its body. -/
theorem hosts_function (h : s.Sound) (hkind : s.kind id = .function)
    (hc : child ∈ s.children id) : s.role? child = some .params ∧ s.kind child = .list ∨
      s.role? child = some .body ∧ s.kind child = .script := by
  obtain ⟨i, -, hhosts⟩ := h.hosts hc
  rw [Head.Hosts, show (s.head id).kind = .function from hkind] at hhosts
  exact hhosts

/-- The children of a declaration are the pattern of a declaration without text and the
initializer. -/
theorem hosts_declaration (h : s.Sound) (hkind : s.kind id = .declaration)
    (hc : child ∈ s.children id) : s.role? child = some .names ∧ s.text? id = none ∨
      s.role? child = some .initializer := by
  obtain ⟨i, -, hhosts⟩ := h.hosts hc
  rw [Head.Hosts, show (s.head id).kind = .declaration from hkind] at hhosts
  exact hhosts

/-- The parameters of a function stand in a list. -/
theorem kind_params (h : s.Sound) (hkind : s.kind id = .function)
    (hparams : s.child? id .params = some child) : s.kind child = .list := by
  rcases h.hosts_function hkind (mem_of_child? hparams) with ⟨-, hlist⟩ | ⟨hbody, -⟩
  · exact hlist
  · rw [role?_of_child? hparams] at hbody
    cases hbody

/-- The body of a function is a script. -/
theorem kind_body (h : s.Sound) (hkind : s.kind id = .function)
    (hbody : s.child? id .body = some child) : s.kind child = .script := by
  rcases h.hosts_function hkind (mem_of_child? hbody) with ⟨hparams, -⟩ | ⟨-, hscript⟩
  · rw [role?_of_child? hbody] at hparams
    cases hparams
  · exact hscript

end Sound

/-- Patterns stay patterns where their nodes lose children at most. -/
theorem IsPattern.of_sublist (hs : s.Sound) (hkind : ∀ id < s.size, s'.kind id = s.kind id)
    (hsub : ∀ id, (s.kind id).inPattern → (∀ c ∈ s.children id, (s.kind c).inPattern) →
      List.Sublist (s'.children id) (s.children id)) (h : s.IsPattern id) : s'.IsPattern id := by
  have hpattern : ∀ {id}, (s.kind id).inPattern → s'.kind id = s.kind id := by
    intro id hid
    refine hkind id (lt_of_kind ?_)
    intro hscript
    rw [hscript] at hid
    cases hid
  induction h with
  | @leaf id hleaf =>
      refine .leaf ?_
      rwa [hpattern (by rcases hleaf with h | h <;> rw [h] <;> rfl)]
  | @array id harray hchildren ih =>
      have hinPattern : (s.kind id).inPattern := by rw [harray]; rfl
      have hless := hsub id hinPattern fun c hc => (hchildren c hc).inPattern
      exact .array ((hpattern hinPattern).trans harray) fun c hc => ih c (hless.subset hc)
  | @object id hobject hfields hvalues ih =>
      have hinPattern : (s.kind id).inPattern := by rw [hobject]; rfl
      have hfield : ∀ c ∈ s.children id, (s.kind c).inPattern := by
        intro c hc
        rw [hfields c hc]
        rfl
      have hless := hsub id hinPattern hfield
      refine .object ((hpattern hinPattern).trans hobject) ?_ ?_
      · intro c hc
        rw [hpattern (hfield c (hless.subset hc)), hfields c (hless.subset hc)]
      · intro c hc value hvalue
        have hc' := hless.subset hc
        refine ih c hc' value ?_
        -- A part of at most two children that has a second one is all of them.
        have hkey : ∀ d ∈ s.children c, (s.kind d).inPattern := by
          intro d hd
          obtain ⟨i, hi, rfl⟩ := List.getElem_of_mem hd
          have hget := List.getElem?_eq_getElem hi
          have hosts := (hs.formed c).hosts i _ hget
          rw [Head.Hosts, show (s.head c).kind = .propertyInit from hfields c hc'] at hosts
          rcases hosts with ⟨-, hkind, -⟩ | rfl
          · exact Kind.inPattern_of_isKey hkind
          · exact (hvalues c hc' _ hget).inPattern
        have hsmall := hs.length_propertyInit (hfields c hc')
        have hpart := hsub c (hfield c hc') hkey
        have hlength : (s.children c).length ≤ (s'.children c).length := by
          have := (List.getElem?_eq_some_iff.mp hvalue).1
          omega
        rwa [← hpart.eq_of_length_le hlength]

end ScriptMin.Store

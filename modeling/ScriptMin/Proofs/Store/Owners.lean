import Mathlib.Data.List.Pairwise
import ScriptMin.Pass.Locals
import ScriptMin.Proofs.Store.Bindings

/-!
Owners of bodies. Every node below the root is inside the body of the nearest function above it,
or of the script. There the scan of the body meets it, or it is the name of a property, or it is
part of a pattern that binds names of the body.
-/

namespace ScriptMin.Store

variable {s : Store} {id owner root c d p : NodeId} {x : String}

/-! ### Places in a body -/

/-- A node is below the owner of a body and not below a function that is there. -/
inductive Inside (s : Store) (owner : NodeId) : NodeId → Prop where
  | child {c : NodeId} (mem : c ∈ s.children owner) : Inside s owner c
  | step {d c : NodeId} (inside : Inside s owner d) (not_function : s.kind d ≠ .function)
      (mem : c ∈ s.children d) : Inside s owner c

/-- Where a node is that is inside a body. -/
inductive Located (s : Store) (owner : NodeId) : NodeId → Prop where
  | meets {d : NodeId} (meets : s.Meets owner d) : Located s owner d
  | frame {d : NodeId} (kind_eq : s.kind owner = .function) (mem : d ∈ s.children owner) :
      Located s owner d
  | property {d : NodeId} (key : (s.kind d).isKey) (property : Locals.isPropertyName s d) :
      Located s owner d
  | pattern {root d : NodeId} (binds : s.BindsPattern owner root) (part : s.PatternPart root d)
      (pattern : s.IsPattern d) : Located s owner d
  | field {root e d : NodeId} (binds : s.BindsPattern owner root) (part : s.PatternPart root e)
      (kind_eq : s.kind e = .objectInit) (pattern : s.IsPattern e) (mem : d ∈ s.children e)
      (field : s.kind d = .propertyInit) : Located s owner d

/-- The children of a node that are told apart by their roles are found by them. -/
theorem Sound.child?_of_mem (h : s.Sound) (hkind : (s.kind id).hasRoles) (hc : c ∈ s.children id)
    {role : Role} (hrole : s.role? c = some role) : s.child? id role = some c := by
  cases hchild : s.child? id role with
  | none => exact absurd (beq_iff_eq.mpr hrole) (List.find?_eq_none.mp hchild c hc)
  | some other =>
      by_contra hne
      have : Std.Symm fun a b => s.role? a ≠ s.role? b := ⟨fun _ _ => Ne.symm⟩
      refine ((h.formed id).roles hkind).forall (mem_of_child? hchild) hc
        (fun heq => hne (congrArg some heq)) ?_
      rw [role?_of_child? hchild, hrole]

theorem Linked.indexOf?_of_nth? (h : s.Linked) {i : Nat} (hc : s.nth? p i = some c) :
    s.indexOf? c = some i := by
  obtain ⟨hi, hget⟩ := List.getElem?_eq_some_iff.mp hc
  simp only [indexOf?, h.parent?_of_mem (mem_of_nth? hc), Option.bind_eq_bind, Option.bind_some]
  refine List.findIdx?_eq_some_iff_getElem.mpr ⟨hi, beq_iff_eq.mpr hget, fun j hj heq => ?_⟩
  have hsame := (h.nodup p).getElem_inj_iff.mp ((beq_iff_eq.mp heq).trans hget.symm)
  omega

/-- A place in a node that asks for nothing below it is empty. -/
theorem Sound.children_of_key (h : s.Sound) (hkey : (s.kind id).isKey) : s.children id = [] := by
  refine List.eq_nil_iff_forall_not_mem.mpr fun c hc => ?_
  obtain ⟨i, -, hhosts⟩ := h.hosts hc
  revert hkey hhosts
  rw [Head.Hosts, show (s.head id).kind = s.kind id from rfl]
  cases s.kind id <;> intro hkey hhosts <;> first | exact hhosts | cases hkey

theorem Sound.children_of_hole (h : s.Sound) (hkind : s.kind id = .hole) : s.children id = [] := by
  refine List.eq_nil_iff_forall_not_mem.mpr fun c hc => ?_
  obtain ⟨i, -, hhosts⟩ := h.hosts hc
  rwa [Head.Hosts, show (s.head id).kind = .hole from hkind] at hhosts

section

variable (h : s.Sound) (hc : c ∈ s.children d)

include h hc

/-- A child of a node that the scan meets is met as well, or is the name of a property, or is a
pattern that binds names. -/
theorem Meets.located (hd : s.Meets owner d) (hfunction : s.kind d ≠ .function) :
    s.Located owner c := by
  by_cases hscan : c ∈ s.scanBelow d
  · exact .meets (hd.next hscan)
  have hname : s.kind d ≠ .identifier := by
    intro hkind
    rw [h.children_of_key (by rw [hkind]; rfl)] at hc
    cases hc
  rw [scanBelow, if_neg (not_or.mpr ⟨hname, hfunction⟩)] at hscan
  obtain ⟨i, hi, hhosts⟩ := h.hosts hc
  rw [Head.Hosts, show (s.head d).kind = s.kind d from rfl] at hhosts
  rw [scannedChildren] at hscan
  have hprop := h.indexOf?_of_nth? hi
  split at hscan
  case h_1 hkind => exact absurd hkind hfunction
  case h_2 hkind =>
      rw [hkind] at hhosts
      rcases hhosts with rfl | ⟨rfl, hkey⟩
      · exact absurd (Option.mem_toList.mpr hi) hscan
      · refine .property (by rw [show s.kind c = .identifier from hkey]; rfl) ?_
        rw [Locals.isPropertyName, parentKind?, h.parent?_of_mem hc, Option.map_some, hkind]
        exact beq_iff_eq.mpr hprop
  case h_3 hkind =>
      rw [hkind] at hhosts
      rcases hhosts with ⟨rfl, hkey, -⟩ | rfl
      · refine .property hkey ?_
        rw [Locals.isPropertyName, parentKind?, h.parent?_of_mem hc, Option.map_some, hkind]
        exact beq_iff_eq.mpr hprop
      · exact absurd (Option.mem_toList.mpr hi) hscan
  case h_4 hkind =>
      rw [hkind] at hhosts
      rcases hhosts with ⟨hrole, -⟩ | hrole
      · have hchild := h.child?_of_mem (by rw [hkind]; rfl) hc hrole
        refine .pattern (.names hd hkind hchild) .root ((h.formed d).patterns c hc ?_)
        rw [Head.binds, show (s.head d).kind = .declaration from hkind]
        exact beq_iff_eq.mpr hrole
      · have hchild := h.child?_of_mem (by rw [hkind]; rfl) hc hrole
        exact absurd (Option.mem_toList.mpr hchild) hscan
  case h_5 hkind =>
      rw [hkind] at hhosts
      rw [List.mem_append, not_or] at hscan
      rcases hhosts with hrole | hrole | hrole
      · have hchild := h.child?_of_mem (by rw [hkind]; rfl) hc hrole
        refine .pattern (.exception hd hkind hchild) .root ((h.formed d).patterns c hc ?_)
        rw [Head.binds, show (s.head d).kind = .catchClause from hkind]
        exact beq_iff_eq.mpr hrole
      · have hchild := h.child?_of_mem (by rw [hkind]; rfl) hc hrole
        exact absurd (Option.mem_toList.mpr hchild) hscan.1
      · have hchild := h.child?_of_mem (by rw [hkind]; rfl) hc hrole
        exact absurd (Option.mem_toList.mpr hchild) hscan.2
  case h_6 => exact absurd hc hscan

omit hc in
/-- The statements of a body are met, and the parameters of a function are patterns. -/
theorem located_of_frame (hkind : s.kind owner = .function) (hd : d ∈ s.children owner)
    (hc : c ∈ s.children d) : s.Located owner c := by
  rcases h.hosts_function hkind hd with ⟨hrole, hlist⟩ | ⟨hrole, -⟩
  · have hchild := h.child?_of_mem (by rw [hkind]; rfl) hd hrole
    refine .pattern (.parameter hkind hchild hc) .root ((h.formed d).patterns c hc ?_)
    rw [Head.binds, show (s.head d).kind = .list from hlist]
    exact beq_iff_eq.mpr hrole
  · have hchild := h.child?_of_mem (by rw [hkind]; rfl) hd hrole
    refine .meets (.top ?_)
    rw [scannedChildren, hkind]
    simp only [hchild]
    exact hc

/-- What is below a part of a pattern is a part of it as well, or a property of an object. -/
theorem located_of_pattern (hroot : s.BindsPattern owner root) (hpart : s.PatternPart root d)
    (hpattern : s.IsPattern d) : s.Located owner c := by
  cases hpattern with
  | leaf hkind =>
      rcases hkind with hkind | hkind
      · rw [h.children_of_key (by rw [hkind]; rfl)] at hc
        cases hc
      · rw [h.children_of_hole hkind] at hc
        cases hc
  | array hkind hchildren => exact .pattern hroot (.element hpart hkind hc) (hchildren c hc)
  | object hkind hfields hvalues =>
      exact .field hroot hpart hkind (.object hkind hfields hvalues) hc (hfields c hc)

/-- The children of a property of a pattern are its key and its value. -/
theorem located_of_field {e : NodeId} (hroot : s.BindsPattern owner root)
    (hpart : s.PatternPart root e) (hkind : s.kind e = .objectInit) (hpattern : s.IsPattern e)
    (hd : d ∈ s.children e) : s.Located owner c := by
  cases hpattern with
  | leaf hleaf => rcases hleaf with hleaf | hleaf <;> rw [hkind] at hleaf <;> cases hleaf
  | array harray => rw [hkind] at harray; cases harray
  | object _ hfields hvalues =>
      obtain ⟨i, hi, hhosts⟩ := h.hosts hc
      rw [Head.Hosts, show (s.head d).kind = .propertyInit from hfields d hd] at hhosts
      rcases hhosts with ⟨rfl, hkey, -⟩ | rfl
      · refine .property hkey ?_
        rw [Locals.isPropertyName, parentKind?, h.parent?_of_mem hc, Option.map_some, hfields d hd]
        exact beq_iff_eq.mpr (h.indexOf?_of_nth? hi)
      · exact .pattern hroot (.value hpart hkind hd hi) (hvalues d hd c hi)

end

theorem Inside.located (h : s.Sound) (howner : s.OwnsBody owner) (hd : s.Inside owner d) :
    s.Located owner d := by
  induction hd with
  | child hc =>
      rcases howner with hkind | hkind
      · exact .frame hkind hc
      · refine .meets (.top ?_)
        rwa [scannedChildren, hkind]
  | step hinside hfunction hc ih =>
      cases ih with
      | meets hmeets => exact hmeets.located h hc hfunction
      | frame hkind hmem => exact located_of_frame h hkind hmem hc
      | property hkey =>
          rw [h.children_of_key hkey] at hc
          cases hc
      | pattern hroot hpart hpattern => exact located_of_pattern h hc hroot hpart hpattern
      | field hroot hpart hkind hpattern hmem _ =>
          exact located_of_field h hc hroot hpart hkind hpattern hmem

/-- The scan of a body meets all nodes inside it that are not in a place of their own. -/
theorem Inside.meets (h : s.Sound) (howner : s.OwnsBody owner) (hd : s.Inside owner d)
    (hplaced : (s.kind d).isPlaced = false) : s.Meets owner d := by
  cases hd.located h howner with
  | meets hmeets => exact hmeets
  | frame hkind hmem =>
      rcases h.hosts_function hkind hmem with ⟨-, hd⟩ | ⟨-, hd⟩ <;> rw [hd] at hplaced <;>
        cases hplaced
  | property hkey =>
      rw [Kind.isPlaced_of_inPattern (Kind.inPattern_of_isKey hkey)] at hplaced
      cases hplaced
  | pattern _ _ hpattern =>
      rw [Kind.isPlaced_of_inPattern hpattern.inPattern] at hplaced
      cases hplaced
  | field _ _ _ _ _ hfield =>
      rw [hfield] at hplaced
      cases hplaced

/-- A name inside a body is used there, or it is the name of a property, or it is bound there. -/
theorem Inside.name_cases (h : s.Sound) (howner : s.OwnsBody owner) (hd : s.Inside owner d)
    (hkind : s.kind d = .identifier) (hproperty : Locals.isPropertyName s d = false) :
    s.Meets owner d ∨ s.Declares owner d := by
  cases hd.located h howner with
  | meets hmeets => exact .inl hmeets
  | frame howner hmem =>
      rcases h.hosts_function howner hmem with ⟨-, hd⟩ | ⟨-, hd⟩ <;> rw [hd] at hkind <;>
        cases hkind
  | property _ hname =>
      rw [hname] at hproperty
      cases hproperty
  | pattern hroot hpart => exact .inr (.pattern hroot hpart hkind)
  | field _ _ _ _ _ hfield =>
      rw [hfield] at hkind
      cases hkind

end ScriptMin.Store

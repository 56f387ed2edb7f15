import Mathlib.Data.List.Nodup
import ScriptMin.Proofs.Bundle.Remembering

/-!
The units that a build needs. A unit depends on another one for a reason that can be read off what
it declares and which names it uses, and what is needed is reached over such dependencies. Main
statement: the units that are asked for can be resolved exactly if they exist and no unit that is
reached lacks a requirement, and then the units that are reached are the answer.
-/

namespace ScriptMin

open Relation

/-! ### Sets of names -/

namespace NameSet

variable {name : String} {names : List String} {set : NameSet}

theorem sorted_insert (h : set.Pairwise (· < ·)) : (insert name set).Pairwise (· < ·) := by
  induction set with
  | nil => exact List.pairwise_singleton _ _
  | cons other rest ih =>
      obtain ⟨hother, hrest⟩ := List.pairwise_cons.mp h
      rw [insert]
      split
      case isTrue hlt =>
          refine List.pairwise_cons.mpr ⟨fun x hx => ?_, h⟩
          rcases List.mem_cons.mp hx with rfl | hx
          · exact hlt
          · exact String.lt_trans hlt (hother x hx)
      case isFalse hle =>
          split
          case isTrue => exact h
          case isFalse hne =>
              have hlt : other < name := by
                by_contra hnot
                exact hne (String.le_antisymm (String.not_lt.mp hnot) (String.not_lt.mp hle))
              refine List.pairwise_cons.mpr ⟨fun x hx => ?_, ih hrest⟩
              rcases mem_insert.mp hx with rfl | hx
              · exact hlt
              · exact hother x hx

theorem sorted_insertAll (h : set.Pairwise (· < ·)) :
    (insertAll names set).Pairwise (· < ·) :=
  List.foldlRecOn names _ h fun _ hset _ _ => sorted_insert hset

theorem sorted_ofList : (ofList names).Pairwise (· < ·) := sorted_insertAll .nil

theorem nodup_of_sorted (h : set.Pairwise (· < ·)) : set.Nodup :=
  List.Pairwise.imp (S := (· ≠ ·)) (fun hlt heq => String.lt_irrefl _ (heq ▸ hlt)) h

end NameSet

namespace Universe

variable {u : Universe} {id d package stem : String} {ids queue done : List String}

/-! ### Owners of dotted names -/

/-- A name is a dotted name or what is left of it without its last parts. -/
def IsStem (stem package : String) : Prop :=
  stem = package ∨ stem.toList ++ ['.'] <+: package.toList

/-- A unit owns a dotted name: it is the longest unit that the name starts with, part by part. -/
structure Owns (u : Universe) (id package : String) : Prop where
  contains : u.contains id
  isStem : IsStem id package
  longest : ∀ other, u.contains other → IsStem other package → other.length ≤ id.length

theorem mem_beforeDots {seen text chars : List Char} :
    chars ∈ beforeDots seen text ↔ ∃ part, part ++ ['.'] <+: text ∧ chars = seen.reverse ++ part := by
  induction text generalizing seen with
  | nil => simp [beforeDots]
  | cons c rest ih =>
      rw [beforeDots, List.mem_append, ih]
      constructor
      · rintro (hhere | ⟨part, hpart, rfl⟩)
        · split at hhere
          case isTrue hdot =>
              refine ⟨[], ?_, by simpa using hhere⟩
              rw [hdot, List.nil_append, List.cons_prefix_cons]
              exact ⟨rfl, List.nil_prefix⟩
          case isFalse => cases hhere
        · exact ⟨c :: part, List.cons_prefix_cons.mpr ⟨rfl, hpart⟩, by simp⟩
      · rintro ⟨part, hpart, rfl⟩
        cases part with
        | nil =>
            obtain ⟨rfl, -⟩ := List.cons_prefix_cons.mp hpart
            exact .inl (by simp)
        | cons x part =>
            obtain ⟨rfl, hrest⟩ := List.cons_prefix_cons.mp hpart
            exact .inr ⟨part, hrest, by simp⟩

/-- What stands before later dots is longer. -/
theorem length_beforeDots {seen text : List Char} :
    (beforeDots seen text).Pairwise fun a b => a.length < b.length := by
  induction text generalizing seen with
  | nil => exact .nil
  | cons c rest ih =>
      rw [beforeDots]
      refine List.pairwise_append.mpr ⟨?_, ih, fun a ha b hb => ?_⟩
      · split
        · exact List.pairwise_singleton _ _
        · exact .nil
      · obtain ⟨part, -, rfl⟩ := mem_beforeDots.mp hb
        split at ha
        · rw [List.mem_singleton.mp ha]
          simp only [List.length_append, List.length_reverse, List.length_cons]
          omega
        · cases ha

theorem mem_stems : stem ∈ stems package ↔ IsStem stem package := by
  simp only [stems, List.mem_cons, List.mem_map, List.mem_reverse, mem_beforeDots, IsStem,
    List.reverse_nil, List.nil_append]
  refine or_congr_right ⟨?_, fun h => ⟨stem.toList, ⟨stem.toList, h, rfl⟩, String.ofList_toList⟩⟩
  rintro ⟨_, ⟨part, hpart, rfl⟩, rfl⟩
  rwa [String.toList_ofList]

theorem length_stems : (stems package).Pairwise fun a b => b.length < a.length := by
  rw [stems]
  refine List.pairwise_cons.mpr ⟨fun other hother => ?_, ?_⟩
  · obtain ⟨chars, hchars, rfl⟩ := List.mem_map.mp hother
    obtain ⟨part, hpart, rfl⟩ := mem_beforeDots.mp (List.mem_reverse.mp hchars)
    have := hpart.length_le
    simp only [List.length_append, List.length_cons, List.length_nil, String.length_toList] at this
    rw [String.length_ofList]
    omega
  · rw [List.pairwise_map, List.pairwise_reverse]
    refine length_beforeDots.imp fun hlt => ?_
    rwa [String.length_ofList, String.length_ofList]

/-- The owner that is found is the longest one. -/
theorem owner?_eq_some_iff : u.owner? package = some id ↔ u.Owns id package := by
  rw [owner?, List.find?_eq_some_iff_append]
  constructor
  · rintro ⟨hcontains, longer, shorter, hstems, hlonger⟩
    refine ⟨hcontains, mem_stems.mp (by simp [hstems]), fun other hother hstem => ?_⟩
    have hmem := mem_stems.mpr hstem
    have hsorted := @length_stems package
    rw [hstems] at hmem hsorted
    rcases List.mem_append.mp hmem with hmem | hmem
    · exact absurd (hlonger other hmem) (by simp [hother])
    · rcases List.mem_cons.mp hmem with rfl | hmem
      · exact Nat.le_refl _
      · have := (List.pairwise_cons.mp (List.pairwise_append.mp hsorted).2.1).1 other hmem
        omega
  · intro h
    obtain ⟨longer, shorter, hstems⟩ := List.append_of_mem (mem_stems.mpr h.isStem)
    refine ⟨h.contains, longer, shorter, hstems, fun other hother => ?_⟩
    have hsorted := @length_stems package
    have hmem : other ∈ stems package := by
      rw [hstems]
      exact List.mem_append_left _ hother
    rw [hstems] at hsorted
    have hlt := (List.pairwise_append.mp hsorted).2.2 other hother id List.mem_cons_self
    cases hcontains : u.contains other with
    | false => rfl
    | true =>
        have := h.longest other hcontains (mem_stems.mp hmem)
        omega

/-! ### Direct dependencies -/

/-- A unit has a reason to depend on a name. -/
inductive Reason (u : Universe) (unit : CompilationUnit) (d : String) : Prop where
  | required (mem : d ∈ unit.manifest.requires) (contains : u.contains d)
  | below (space : String) (mem : space ++ ".*" ∈ unit.manifest.requires)
      (below : (space ++ ".").toList <+: d.toList) (contains : u.contains d)
  | wanted (mem : d ∈ unit.manifest.wants) (contains : u.contains d)
  | package (name : String) (mem : name ∈ unit.packages) (owns : u.Owns d name)
  | shared (mem : d ∈ unit.shared) (contains : u.contains d)

/-- A unit depends on another one. -/
def DependsOn (u : Universe) (id d : String) : Prop :=
  d ≠ id ∧ ∃ unit, u.get? id = some unit ∧ u.Reason unit d

theorem DependsOn.contains (h : u.DependsOn id d) : u.contains d := by
  obtain ⟨-, unit, -, hreason⟩ := h
  cases hreason with
  | required _ contains => exact contains
  | below _ _ _ contains => exact contains
  | wanted _ contains => exact contains
  | package _ _ owns => exact owns.contains
  | shared _ contains => exact contains

/-- A requirement for all units below a namespace ends in a dot and a star. -/
theorem namespaceOf?_eq_some_iff {name space : String} :
    namespaceOf? name = some space ↔ name = space ++ ".*" := by
  rw [namespaceOf?, ← String.toList_inj, String.toList_append]
  constructor
  · intro h
    split at h
    case h_1 rest hname =>
        rw [← Option.some_inj.mp h, String.toList_ofList]
        simpa using congrArg List.reverse hname
    case h_2 => cases h
  · intro h
    have hname : name.toList.reverse = '*' :: '.' :: space.toList.reverse := by
      rw [h, List.reverse_append]
      rfl
    simp only [hname, List.reverse_reverse, String.ofList_toList]

theorem mem_below {space : String} :
    d ∈ u.below space ↔ (space ++ ".").toList <+: d.toList ∧ u.contains d := by
  rw [below, List.mem_filter, List.isPrefixOf_iff_prefix, String.toList_append, and_comm]
  refine and_congr_right fun _ => ?_
  rw [ids, contains, get?, List.find?_isSome, List.mem_map]
  exact exists_congr fun unit => and_congr_right fun _ => beq_iff_eq.symm

theorem mem_of_mapM_ok {α β ε : Type} {f : α → Except ε β} {items : List α} {results : List β}
    (h : items.mapM f = .ok results) {result : β} :
    result ∈ results ↔ ∃ item ∈ items, f item = .ok result := by
  induction items generalizing results with
  | nil =>
      cases h
      simp
  | cons item rest ih =>
      rw [List.mapM_cons] at h
      cases hitem : f item with
      | error fault =>
          rw [hitem] at h
          cases h
      | ok first =>
          cases hrest : rest.mapM f with
          | error fault => simp [hitem, hrest, bind, Except.bind] at h
          | ok others =>
              simp only [hitem, hrest, bind, Except.bind, pure, Except.pure, Except.ok.injEq] at h
              rw [← h, List.mem_cons, ih hrest, List.exists_mem_cons_iff, hitem, Except.ok.injEq,
                eq_comm]

/-- The units that the requirements of a unit stand for are those that it has a reason for. -/
theorem mem_required {unit : CompilationUnit} {lists : List (List String)}
    (h : unit.manifest.requires.mapM (u.required id) = .ok lists) (hd : d ∈ lists.flatten) :
    u.Reason unit d := by
  obtain ⟨found, hfound, hd⟩ := List.mem_flatten.mp hd
  obtain ⟨name, hname, hrequired⟩ := (mem_of_mapM_ok h).mp hfound
  rw [required] at hrequired
  cases hspace : namespaceOf? name with
  | some space =>
      simp only [hspace, Except.ok.injEq] at hrequired
      obtain ⟨hbelow, hcontains⟩ := mem_below.mp (hrequired ▸ hd)
      exact .below space (namespaceOf?_eq_some_iff.mp hspace ▸ hname) hbelow hcontains
  | none =>
      simp only [hspace] at hrequired
      split at hrequired
      case isTrue hcontains =>
          obtain rfl := List.mem_singleton.mp (Except.ok.inj hrequired ▸ hd)
          exact .required hname hcontains
      case isFalse => cases hrequired

/-- What the direct dependencies of a unit are collected from. -/
theorem dependencies_eq_ok {found : NameSet} (h : u.dependencies id = .ok found) :
    ∃ unit lists, u.get? id = some unit ∧
      unit.manifest.requires.mapM (u.required id) = .ok lists ∧
      found = (NameSet.ofList (lists.flatten ++ unit.manifest.wants.filter u.contains ++
        unit.packages.filterMap u.owner? ++ unit.shared.filter u.contains)).filter (· ≠ id) := by
  rw [dependencies, demand] at h
  cases hget : u.get? id with
  | none =>
      rw [hget] at h
      cases h
  | some unit =>
      cases hmap : unit.manifest.requires.mapM (u.required id) with
      | error fault => simp [hget, hmap, bind, Except.bind] at h
      | ok lists =>
          simp only [hget, hmap, bind, Except.bind, pure, Except.pure, Except.ok.injEq] at h
          exact ⟨unit, lists, rfl, hmap, h.symm⟩

theorem sorted_dependencies {found : NameSet} (h : u.dependencies id = .ok found) :
    found.Pairwise (· < ·) := by
  obtain ⟨_, _, -, -, rfl⟩ := dependencies_eq_ok h
  exact NameSet.sorted_ofList.filter _

/-- The direct dependencies of a unit are the units that it depends on. -/
theorem mem_dependencies {found : NameSet} (h : u.dependencies id = .ok found) :
    d ∈ found ↔ u.DependsOn id d := by
  obtain ⟨unit, lists, hget, hmap, rfl⟩ := dependencies_eq_ok h
  simp only [List.mem_filter, NameSet.mem_ofList, List.mem_append, List.mem_filterMap,
    owner?_eq_some_iff, decide_eq_true_eq, DependsOn, hget, Option.some.injEq, exists_eq_left',
    and_comm (b := d ≠ id)]
  refine and_congr_right fun _ => ⟨?_, fun hreason => ?_⟩
  · rintro (((hd | ⟨hwanted, hcontains⟩) | ⟨name, hname, howns⟩) | ⟨hshared, hcontains⟩)
    · exact mem_required hmap hd
    · exact .wanted hwanted hcontains
    · exact .package name hname howns
    · exact .shared hshared hcontains
  have hrequired : ∀ {name found}, name ∈ unit.manifest.requires →
      u.required id name = .ok found → d ∈ found → d ∈ lists.flatten := by
    intro name found hname hfound hd
    exact List.mem_flatten.mpr ⟨found, (mem_of_mapM_ok hmap).mpr ⟨name, hname, hfound⟩, hd⟩
  have hspaced : ∀ {name space}, name ∈ unit.manifest.requires → name = space ++ ".*" →
      (space ++ ".").toList <+: d.toList → u.contains d → d ∈ lists.flatten := by
    intro name space hname hspace hbelow hcontains
    refine @hrequired name (u.below space) hname ?_ (mem_below.mpr ⟨hbelow, hcontains⟩)
    rw [required, namespaceOf?_eq_some_iff.mpr hspace]
  cases hreason with
  | wanted mem contains => exact .inl (.inl (.inr ⟨mem, contains⟩))
  | package name mem owns => exact .inl (.inr ⟨name, mem, owns⟩)
  | shared mem contains => exact .inr ⟨mem, contains⟩
  | below space mem below contains => exact .inl (.inl (.inl (hspaced mem rfl below contains)))
  | required mem contains =>
      refine .inl (.inl (.inl ?_))
      cases hspace : namespaceOf? d with
      | none =>
          refine hrequired mem ?_ (List.mem_singleton_self d)
          rw [required, hspace]
          exact if_pos contains
      | some space =>
          -- A unit that is called like a namespace is one of the units below it.
          have hname := namespaceOf?_eq_some_iff.mp hspace
          refine hspaced mem hname ?_ contains
          rw [hname, String.toList_append, String.toList_append]
          exact ⟨['*'], by simp⟩

/-- What a unit depends on is known unless something is lacking. -/
theorem dependencies_ok_iff : (∃ found, u.dependencies id = .ok found) ↔ ¬ u.Lacks id := by
  rw [← loadedBefore_ok_iff, loadedBefore]
  cases hunit : u.demand id with
  | error fault => simp [dependencies, hunit, bind, Except.bind]
  | ok unit => cases u.dependencies id <;> simp [bind, Except.bind, pure, Except.pure]

/-! ### All units that are needed -/

/-- A unit is needed: it is asked for, or a needed unit depends on it. -/
def Needs (u : Universe) (ids : List String) (d : String) : Prop :=
  ∃ id ∈ ids, ReflTransGen u.DependsOn id d

theorem Needs.next (h : u.Needs ids id) (hd : u.DependsOn id d) : u.Needs ids d :=
  have ⟨first, hfirst, hpath⟩ := h
  ⟨first, hfirst, hpath.tail hd⟩

/-- The search for the needed units has dealt with some units and goes on with those in a queue. -/
structure Closing (u : Universe) (ids done queue : List String) (needed : NameSet) : Prop where
  nodup : (done ++ queue).Nodup
  sorted : needed.Pairwise (· < ·)
  mem_iff : ∀ d, d ∈ needed ↔ d ∈ done ++ queue
  contains : ∀ d ∈ done ++ queue, u.contains d
  needs : ∀ d ∈ done ++ queue, u.Needs ids d
  start : ∀ d ∈ ids, d ∈ done ++ queue
  clear : ∀ id ∈ done, ¬ u.Lacks id
  closed : ∀ id ∈ done, ∀ d, u.DependsOn id d → d ∈ done ++ queue

namespace Closing

variable {needed found : NameSet}

/-- The units dealt with and those in the queue are different units of the universe. -/
theorem length_le (h : u.Closing ids done queue needed) :
    done.length + queue.length ≤ u.size := by
  rw [← List.length_append]
  refine length_le_size h.nodup fun d hd => ?_
  have hcontains := h.contains d hd
  rw [Universe.contains, get?, List.find?_isSome] at hcontains
  obtain ⟨unit, hunit, hid⟩ := hcontains
  exact List.mem_map.mpr ⟨unit, hunit, beq_iff_eq.mp hid⟩

/-- The next unit is dealt with, and what it depends on comes into the queue. -/
theorem step (h : u.Closing ids done (id :: queue) needed) (hfound : u.dependencies id = .ok found) :
    let fresh := found.filter fun d => !needed.contains d
    u.Closing ids (done ++ [id]) (queue ++ fresh) (needed.insertAll fresh) := by
  intro fresh
  have happend : done ++ [id] ++ (queue ++ fresh) = done ++ id :: queue ++ fresh := by simp
  have hid : id ∈ done ++ id :: queue := by simp
  have hfresh : ∀ d, d ∈ fresh ↔ u.DependsOn id d ∧ d ∉ done ++ id :: queue := by
    intro d
    rw [List.mem_filter, mem_dependencies hfound, ← h.mem_iff]
    simp
  constructor <;> try rw [happend]
  case nodup =>
      have hnodup : fresh.Nodup := by
        refine NameSet.nodup_of_sorted (List.Pairwise.filter _ ?_)
        exact sorted_dependencies hfound
      exact List.nodup_append'.mpr ⟨h.nodup, hnodup, fun d hd hd' => ((hfresh d).mp hd').2 hd⟩
  case sorted => exact NameSet.sorted_insertAll h.sorted
  case mem_iff =>
      intro d
      rw [NameSet.mem_insertAll, h.mem_iff, List.mem_append (s := done ++ id :: queue), or_comm]
  case contains =>
      intro d hd
      rcases List.mem_append.mp hd with hd | hd
      · exact h.contains d hd
      · exact ((hfresh d).mp hd).1.contains
  case needs =>
      intro d hd
      rcases List.mem_append.mp hd with hd | hd
      · exact h.needs d hd
      · exact (h.needs id hid).next ((hfresh d).mp hd).1
  case start => exact fun d hd => List.mem_append_left _ (h.start d hd)
  case clear =>
      intro other hother
      rcases List.mem_append.mp hother with hother | hother
      · exact h.clear other hother
      · rw [List.mem_singleton.mp hother]
        exact dependencies_ok_iff.mp ⟨found, hfound⟩
  case closed =>
      intro other hother d hd
      rcases List.mem_append.mp hother with hother | hother
      · exact List.mem_append_left _ (h.closed other hother d hd)
      · rw [List.mem_singleton.mp hother] at hd
        by_cases hold : d ∈ done ++ id :: queue
        · exact List.mem_append_left _ hold
        · exact List.mem_append_right _ ((hfresh d).mpr ⟨hd, hold⟩)

/-- Once the queue is empty, all units that are needed have been dealt with. -/
theorem mem_of_needs (h : u.Closing ids done [] needed) (hd : u.Needs ids d) : d ∈ done := by
  have hdone := h.start
  have hclosed := h.closed
  rw [List.append_nil] at hdone hclosed
  obtain ⟨first, hfirst, hpath⟩ := hd
  induction hpath with
  | refl => exact hdone first hfirst
  | tail _ hlast ih => exact hclosed _ ih _ hlast

end Closing

/-- An answer to the question for the needed units is right: it is the set of these units, or there
is one among them that lacks a requirement. -/
def Settles (u : Universe) (ids : List String) : Except DependencyFault NameSet → Prop
  | .ok needed => needed.Pairwise (· < ·) ∧ (∀ d, d ∈ needed ↔ u.Needs ids d) ∧
      ∀ d, u.Needs ids d → ¬ u.Lacks d
  | .error _ => ∃ d, u.Needs ids d ∧ u.Lacks d

theorem Closing.settles_nil {needed : NameSet} (h : u.Closing ids done [] needed) :
    u.Settles ids (.ok needed) := by
  have hmem := h.mem_iff
  have hneeds := h.needs
  rw [List.append_nil] at hmem hneeds
  refine ⟨h.sorted, fun d => ?_, fun d hd => h.clear d (h.mem_of_needs hd)⟩
  rw [hmem]
  exact ⟨hneeds d, h.mem_of_needs⟩

/-- The search comes to its end if there are as many steps as units that are not dealt with. -/
theorem Closing.settles {needed : NameSet} {steps : Nat} (h : u.Closing ids done queue needed)
    (hsteps : u.size ≤ steps + done.length) : u.Settles ids (u.close steps queue needed) := by
  induction steps generalizing done queue needed with
  | zero =>
      have hqueue : queue = [] := by
        have := h.length_le
        exact List.length_eq_zero_iff.mp (by omega)
      subst hqueue
      exact h.settles_nil
  | succ steps ih =>
      cases queue with
      | nil => exact h.settles_nil
      | cons id queue =>
          rw [close]
          cases hfound : u.dependencies id with
          | error fault =>
              refine ⟨id, h.needs id (by simp), ?_⟩
              by_contra hclear
              obtain ⟨found, hok⟩ := dependencies_ok_iff.mpr hclear
              rw [hfound] at hok
              cases hok
          | ok found =>
              refine ih (h.step hfound) ?_
              rw [List.length_append, List.length_singleton]
              omega

/-- The search starts with the units that are asked for, each once, unless one does not exist. -/
theorem start_cases (hnodup : queue.Nodup) (hqueue : ∀ d ∈ queue, u.contains d) :
    (∃ first, u.start ids queue = .ok first ∧ first.Nodup ∧ (∀ d ∈ first, u.contains d) ∧
      ∀ d, d ∈ first ↔ d ∈ queue ∨ d ∈ ids) ∨
    (∃ fault, u.start ids queue = .error fault) ∧ ∃ id ∈ ids, ¬ u.contains id := by
  induction ids generalizing queue with
  | nil => exact .inl ⟨queue, rfl, hnodup, hqueue, by simp⟩
  | cons id rest ih =>
      rw [start, demand]
      cases hget : u.get? id with
      | none =>
          refine .inr ⟨⟨_, rfl⟩, id, List.mem_cons_self, ?_⟩
          rw [contains, hget]
          simp
      | some unit =>
          have hid : u.contains id := by
            rw [contains, hget]
            rfl
          -- The unit comes into the queue, unless it is there already.
          obtain ⟨hnodup', hcontains, hmem⟩ :
              (if queue.contains id then queue else queue ++ [id]).Nodup ∧
              (∀ d ∈ if queue.contains id then queue else queue ++ [id], u.contains d) ∧
              ∀ d, d ∈ (if queue.contains id then queue else queue ++ [id]) ↔
                d ∈ queue ∨ d = id := by
            split
            case isTrue hold =>
                refine ⟨hnodup, hqueue, fun d => ⟨.inl, fun hd => hd.elim (fun hd => hd) ?_⟩⟩
                rintro rfl
                exact List.contains_iff_mem.mp hold
            case isFalse hnew =>
                rw [List.contains_iff_mem] at hnew
                refine ⟨List.nodup_append'.mpr ⟨hnodup, List.nodup_singleton id, ?_⟩, ?_, by simp⟩
                · exact List.disjoint_singleton.mpr hnew
                · intro d hd
                  rcases List.mem_append.mp hd with hd | hd
                  · exact hqueue d hd
                  · rwa [List.mem_singleton.mp hd]
          refine (ih hnodup' hcontains).imp ?_ ?_
          · rintro ⟨first, hfirst, hnodup, hcontains, hiff⟩
            refine ⟨first, hfirst, hnodup, hcontains, fun d => ?_⟩
            rw [hiff, hmem, List.mem_cons, or_assoc]
          · rintro ⟨hfault, other, hother, hmissing⟩
            exact ⟨hfault, other, List.mem_cons_of_mem _ hother, hmissing⟩

/-- Units can be resolved exactly if they all exist and no unit that they need, directly or over
others, lacks a requirement. The answer then is the set of the units that are needed. What a unit
needs directly are the units that there is a reason for. -/
theorem resolve_isClosure (u : Universe) (ids : List String) :
    ((∃ needed, u.resolve ids = .ok needed) ↔
      (∀ id ∈ ids, u.contains id) ∧ ∀ d, u.Needs ids d → ¬ u.Lacks d) ∧
    (∀ needed, u.resolve ids = .ok needed →
      needed.Pairwise (· < ·) ∧ ∀ d, d ∈ needed ↔ u.Needs ids d) ∧
    ∀ id, ¬ u.Lacks id → ∃ found, u.dependencies id = .ok found ∧
      found.Pairwise (· < ·) ∧ ∀ d, d ∈ found ↔ u.DependsOn id d := by
  have hdependencies : ∀ id, ¬ u.Lacks id → ∃ found, u.dependencies id = .ok found ∧
      found.Pairwise (· < ·) ∧ ∀ d, d ∈ found ↔ u.DependsOn id d := by
    intro id hclear
    obtain ⟨found, hfound⟩ := dependencies_ok_iff.mpr hclear
    exact ⟨found, hfound, sorted_dependencies hfound, fun d => mem_dependencies hfound⟩
  rcases @start_cases u ids [] List.nodup_nil (by simp) with
    ⟨first, hfirst, hnodup, hcontains, hmem⟩ | ⟨⟨fault, hfault⟩, id, hid, hmissing⟩
  · have hstart : u.Closing ids [] first (NameSet.ofList first) := by
      have hmem' : ∀ d, d ∈ first ↔ d ∈ ids := fun d => by simpa using hmem d
      exact {
        nodup := hnodup
        sorted := NameSet.sorted_ofList
        mem_iff := fun d => NameSet.mem_ofList
        contains := hcontains
        needs := fun d hd => ⟨d, (hmem' d).mp hd, .refl⟩
        start := fun d hd => (hmem' d).mpr hd
        clear := by simp
        closed := by simp }
    have hsettles := hstart.settles (Nat.le_refl u.size)
    have hresolve : u.resolve ids = u.close u.size first (NameSet.ofList first) := by
      rw [resolve, hfirst]
      rfl
    rw [hresolve]
    cases hclose : u.close u.size first (NameSet.ofList first) with
    | ok needed =>
        obtain ⟨hsorted, hneeds, hclear⟩ := hclose ▸ hsettles
        refine ⟨⟨fun _ => ⟨fun id hid => hcontains id ((hmem id).mpr (.inr hid)), hclear⟩,
          fun _ => ⟨needed, rfl⟩⟩, ?_, hdependencies⟩
        rintro _ ⟨⟩
        exact ⟨hsorted, hneeds⟩
    | error fault =>
        obtain ⟨d, hneeded, hlacks⟩ := hclose ▸ hsettles
        exact ⟨⟨nofun, fun h => absurd hlacks (h.2 d hneeded)⟩, nofun, hdependencies⟩
  · have hresolve : u.resolve ids = .error fault := by
      rw [resolve, hfault]
      rfl
    rw [hresolve]
    exact ⟨⟨nofun, fun h => absurd (h.1 id hid) hmissing⟩, nofun, hdependencies⟩

end Universe

end ScriptMin

import Mathlib.Data.List.Nodup
import ScriptMin.Permutation
import ScriptMin.Proofs.Data.Text

/-!
Sharing of permutations. A registry hands out one instance for every key, so that it keeps
permutations apart exactly if their keys do. Keys do so if no name of a setting has a colon and no
value is a negative zero.

Keys hold the texts of values, and all that is asked of these is that they tell the values and
where they end. `Data.text` does so, and the laws of a registry are proved for any writer that does.
-/

namespace ScriptMin

/-! ### Equal values -/

/-- A finite number other than the negative zero. -/
@[mk_iff]
structure Number.Plain (v : Number) : Prop where
  finite : v.isFinite
  sign : v.isZero → v.negative = false

instance {v : Number} : Decidable v.Plain := decidable_of_iff' _ (Number.plain_iff v)

theorem Number.eqv_iff_eq {v w : Number} (hv : v.Plain) (hw : w.Plain) : v.eqv w ↔ v = w := by
  have hzero : v.isZero → w.isZero → v = w := by
    intro hvzero hwzero
    have hvsign := hv.sign hvzero
    have hwsign := hw.sign hwzero
    obtain ⟨_, exponent, fraction⟩ := v
    obtain ⟨_, exponent', fraction'⟩ := w
    rw [isZero, Bool.and_eq_true, beq_iff_eq, beq_iff_eq] at hvzero hwzero
    rw [mk.injEq, Fin.ext_iff, Fin.ext_iff]
    exact ⟨hvsign.trans hwsign.symm, hvzero.1.trans hwzero.1.symm, hvzero.2.trans hwzero.2.symm⟩
  rw [eqv, isNaN_of_isFinite hv.finite, isNaN_of_isFinite hw.finite, Bool.not_false,
    Bool.true_and, Bool.true_and, Bool.or_eq_true, beq_iff_eq, Bool.and_eq_true]
  exact ⟨fun h => h.elim id fun h => hzero h.1 h.2, .inl⟩

namespace Data

mutual
/-- Equality of values: the two zeros are equal, whole numbers and others are not. -/
def eqv : Data → Data → Bool
  | null, null => true
  | bool a, bool b => a == b
  | int a, int b => a == b
  | float a, float b => a.eqv b
  | string a, string b => a == b
  | array a, array b => eqvItems a b
  | object a, object b => eqvFields a b
  | _, _ => false

def eqvItems : List Data → List Data → Bool
  | [], [] => true
  | a :: as, b :: bs => eqv a b && eqvItems as bs
  | _, _ => false

def eqvFields : List (String × Data) → List (String × Data) → Bool
  | [], [] => true
  | (name, a) :: as, (name', b) :: bs => name == name' && (eqv a b && eqvFields as bs)
  | _, _ => false
end

mutual
theorem eqv_iff_eq (a b : Data) (ha : ∀ v ∈ a.floats, v.Plain) (hb : ∀ v ∈ b.floats, v.Plain) :
    a.eqv b ↔ a = b := by
  match a with
  | null =>
      cases b with
      | null => simp [eqv]
      | _ => simp [eqv]
  | bool value =>
      cases b with
      | bool value' => simp [eqv]
      | _ => simp [eqv]
  | int value =>
      cases b with
      | int value' => simp [eqv]
      | _ => simp [eqv]
  | float value =>
      cases b with
      | float value' =>
          rw [eqv, float.injEq]
          exact Number.eqv_iff_eq (ha value (List.mem_singleton_self value))
            (hb value' (List.mem_singleton_self value'))
      | _ => simp [eqv]
  | string text =>
      cases b with
      | string text' => simp [eqv]
      | _ => simp [eqv]
  | array items =>
      cases b with
      | array items' =>
          rw [eqv, array.injEq]
          exact eqvItems_iff_eq items items' ha hb
      | _ => simp [eqv]
  | object fields =>
      cases b with
      | object fields' =>
          rw [eqv, object.injEq]
          exact eqvFields_iff_eq fields fields' ha hb
      | _ => simp [eqv]

theorem eqvItems_iff_eq (items items' : List Data) (ha : ∀ v ∈ itemFloats items, v.Plain)
    (hb : ∀ v ∈ itemFloats items', v.Plain) : eqvItems items items' ↔ items = items' := by
  match items with
  | [] =>
      cases items' with
      | nil => simp [eqvItems]
      | cons item' rest' => simp [eqvItems]
  | item :: rest =>
      cases items' with
      | nil => simp [eqvItems]
      | cons item' rest' =>
          rw [itemFloats, List.forall_mem_append] at ha hb
          rw [eqvItems, Bool.and_eq_true, eqv_iff_eq item item' ha.1 hb.1,
            eqvItems_iff_eq rest rest' ha.2 hb.2, List.cons.injEq]

theorem eqvFields_iff_eq (fields fields' : List (String × Data))
    (ha : ∀ v ∈ fieldFloats fields, v.Plain) (hb : ∀ v ∈ fieldFloats fields', v.Plain) :
    eqvFields fields fields' ↔ fields = fields' := by
  match fields with
  | [] =>
      cases fields' with
      | nil => simp [eqvFields]
      | cons field' rest' => simp [eqvFields]
  | (name, value) :: rest =>
      cases fields' with
      | nil => simp [eqvFields]
      | cons field' rest' =>
          obtain ⟨name', value'⟩ := field'
          rw [fieldFloats, List.forall_mem_append] at ha hb
          rw [eqvFields, Bool.and_eq_true, Bool.and_eq_true, beq_iff_eq,
            eqv_iff_eq value value' ha.1 hb.1, eqvFields_iff_eq rest rest' ha.2 hb.2,
            List.cons.injEq, Prod.mk.injEq, and_assoc]
end

end Data

namespace Permutation

/-- Whether two permutations have equal values. -/
def eqv (p q : Permutation) : Bool := Data.eqvFields p.settings q.settings

/-- A permutation without a colon in a name and without a negative zero. -/
@[mk_iff]
structure Plain (p : Permutation) : Prop where
  names : ∀ name ∈ p.names, ':' ∉ name.toList
  values : ∀ v ∈ Data.fieldFloats p.settings, v.Plain

instance {p : Permutation} : Decidable p.Plain := decidable_of_iff' _ (plain_iff p)

theorem eqv_iff_eq {p q : Permutation} (hp : p.Plain) (hq : q.Plain) : p.eqv q ↔ p = q := by
  obtain ⟨settings⟩ := p
  obtain ⟨settings'⟩ := q
  rw [eqv, mk.injEq]
  exact Data.eqvFields_iff_eq settings settings' hp.values hq.values

end Permutation

/-! ### Keys -/

/-- The texts of finite values tell the values and where they end, in front of anything that does
not go on like a number. -/
def Data.Writer.Tells (write : Data.Writer) : Prop :=
  ∀ a b : Data, (∀ v ∈ a.floats, v.isFinite) → (∀ v ∈ b.floats, v.isFinite) →
    ∀ s t : List Char, Clear s → Clear t →
      (write a).toList ++ s = (write b).toList ++ t → a = b ∧ s = t

theorem Data.tells_text : Data.Writer.Tells Data.text := by
  intro a b ha hb s t hs ht h
  rw [text, text, String.toList_ofList, String.toList_ofList] at h
  exact chars_append_inj a b ha hb hs ht h

namespace Permutation

variable {write : Data.Writer}

def keyChars (write : Data.Writer) (settings : List (String × Data)) : List Char :=
  [';'].intercalate (settings.map fun (name, value) => name.toList ++ ':' :: (write value).toList)

/-- Text behind a setting that is followed by the given ones. -/
def keyTail (write : Data.Writer) : List (String × Data) → List Char
  | [] => []
  | rest => ';' :: keyChars write rest

theorem toList_keyBy (write : Data.Writer) (p : Permutation) :
    (p.keyBy write).toList = keyChars write p.settings := by
  rw [keyBy, String.toList_intercalate, List.map_map, keyChars]
  congr 2
  funext setting
  simp

theorem keyChars_cons (name : String) (value : Data) (rest : List (String × Data)) :
    keyChars write ((name, value) :: rest) =
      name.toList ++ ':' :: ((write value).toList ++ keyTail write rest) := by
  cases rest with
  | nil => simp [keyChars, keyTail, List.intercalate]
  | cons next rest => simp [keyChars, keyTail, List.intercalate]

theorem clear_keyTail (rest : List (String × Data)) : Data.Clear (keyTail write rest) := by
  cases rest with
  | nil => nofun
  | cons next rest => exact fun _ hc => by cases hc; rfl

theorem keyChars_eq_of_keyTail_eq {rest rest' : List (String × Data)}
    (h : keyTail write rest = keyTail write rest') : keyChars write rest = keyChars write rest' := by
  cases rest with
  | nil =>
      cases rest' with
      | nil => rfl
      | cons next' rest' => cases h
  | cons next rest =>
      cases rest' with
      | nil => cases h
      | cons next' rest' => exact (List.cons.inj h).2

/-- Settings without a colon in a name are told by their text in a key. -/
theorem keyChars_inj (hwrite : write.Tells) {settings settings' : List (String × Data)}
    (hnames : ∀ setting ∈ settings, ':' ∉ setting.1.toList)
    (hnames' : ∀ setting ∈ settings', ':' ∉ setting.1.toList)
    (hfinite : ∀ v ∈ Data.fieldFloats settings, v.isFinite)
    (hfinite' : ∀ v ∈ Data.fieldFloats settings', v.isFinite)
    (h : keyChars write settings = keyChars write settings') : settings = settings' := by
  induction settings generalizing settings' with
  | nil =>
      cases settings' with
      | nil => rfl
      | cons setting' rest' =>
          rw [keyChars_cons] at h
          simp [keyChars] at h
  | cons setting rest ih =>
      cases settings' with
      | nil =>
          rw [keyChars_cons] at h
          simp [keyChars] at h
      | cons setting' rest' =>
          obtain ⟨name, value⟩ := setting
          obtain ⟨name', value'⟩ := setting'
          rw [List.forall_mem_cons] at hnames hnames'
          rw [Data.fieldFloats, List.forall_mem_append] at hfinite hfinite'
          rw [keyChars_cons, keyChars_cons] at h
          have hclass : ∀ {name : String}, ':' ∉ name.toList → ∀ c ∈ name.toList, c != ':' :=
            fun hname c hc => bne_iff_ne.mpr (ne_of_mem_of_not_mem hc hname)
          have hcolon : ∀ text : List Char, ∀ c ∈ (':' :: text).head?, (c != ':') = false := by
            rintro text c hc
            cases hc
            rfl
          obtain ⟨hname, hbehind⟩ := Data.append_inj_of_forall (hclass hnames.1)
            (hclass hnames'.1) (hcolon _) (hcolon _) h
          obtain ⟨hvalue, htail⟩ := hwrite value value' hfinite.1 hfinite'.1 _ _
            (clear_keyTail rest) (clear_keyTail rest') (List.cons.inj hbehind).2
          have hsame : name = name' := String.toList_inj.mp hname
          rw [hsame, hvalue,
            ih hnames.2 hnames'.2 hfinite.2 hfinite'.2 (keyChars_eq_of_keyTail_eq htail)]

/-- The key of a permutation without a colon in a name tells the permutation. -/
theorem keyBy_inj (hwrite : write.Tells) {p q : Permutation} (hp : p.Plain) (hq : q.Plain)
    (h : p.keyBy write = q.keyBy write) : p = q := by
  have hsettings : p.settings = q.settings := by
    apply keyChars_inj hwrite
    · exact fun setting hsetting => hp.names setting.1 (List.mem_map_of_mem hsetting)
    · exact fun setting hsetting => hq.names setting.1 (List.mem_map_of_mem hsetting)
    · exact fun v hv => (hp.values v hv).finite
    · exact fun v hv => (hq.values v hv).finite
    · rw [← toList_keyBy, ← toList_keyBy, h]
  obtain ⟨settings⟩ := p
  exact congrArg mk hsettings

/-! ### Registries -/

inductive Call where
  | intern (p : Permutation)
  | create (fields : List (String × Data))
  | filter (p : Permutation) (names : List String)

def Call.requested : Call → Permutation
  | intern p => p
  | create fields => ofFields fields
  | filter p names => p.filter names

/-- A call with the number of the instance that it was given. -/
structure Handout where
  call : Call
  index : Nat

namespace Registry

variable {write : Data.Writer} {r : Registry} {p : Permutation} {calls : List Call}

def answer (write : Data.Writer) (r : Registry) : Call → Nat × Registry
  | .intern p => internBy write p r
  | .create fields => internBy write (ofFields fields) r
  | .filter p names => internFilteredBy write p names r

def serve (write : Data.Writer) (r : Registry) : List Call → List Handout × Registry
  | [] => ([], r)
  | call :: rest =>
    let (index, r) := r.answer write call
    let (handouts, r) := r.serve write rest
    (⟨call, index⟩ :: handouts, r)

theorem answer_eq (r : Registry) (call : Call) :
    r.answer write call = internBy write call.requested r := by
  cases call with
  | intern p => rfl
  | create fields => rfl
  | filter p names => rfl

/-- No two instances have the same key. -/
def Distinct (write : Data.Writer) (r : Registry) : Prop := (r.instances.map (keyBy write)).Nodup

/-- The instance with a number has a key. -/
def HasKey (write : Data.Writer) (r : Registry) (index : Nat) (key : String) : Prop :=
  ∃ shared, r.get? index = some shared ∧ shared.keyBy write = key

/-- A registry after some instances have been handed out. -/
structure Served (write : Data.Writer) (r : Registry) (handouts : List Handout) (r' : Registry) :
    Prop where
  distinct : r.Distinct write → r'.Distinct write
  grows : r.instances <+: r'.instances
  keys : ∀ h ∈ handouts, r'.HasKey write h.index (h.call.requested.keyBy write)
  origin : ∀ p ∈ r'.instances, p ∈ r.instances ∨ ∃ h ∈ handouts, h.call.requested = p

theorem HasKey.mono {r r' : Registry} {index : Nat} {key : String}
    (h : r.HasKey write index key) (hgrows : r.instances <+: r'.instances) :
    r'.HasKey write index key := by
  obtain ⟨shared, hget, hkey⟩ := h
  obtain ⟨added, hadded⟩ := hgrows
  have hlt : index < r.instances.length := (List.getElem?_eq_some_iff.mp hget).1
  refine ⟨shared, ?_, hkey⟩
  rw [get?, ← hadded, List.getElem?_append_left hlt]
  exact hget

/-- Either an instance has the key already, or the permutation becomes an instance. -/
theorem internBy_cases (write : Data.Writer) (p : Permutation) (r : Registry) :
    (∃ index, r.HasKey write index (p.keyBy write) ∧ internBy write p r = (index, r)) ∨
      (∀ other ∈ r.instances, other.keyBy write ≠ p.keyBy write) ∧
        internBy write p r = (r.size, ⟨r.instances ++ [p]⟩) := by
  rw [internBy]
  cases hfind : r.instances.findIdx? fun other => other.keyBy write == p.keyBy write with
  | some index =>
      obtain ⟨hlt, hkey, -⟩ := List.findIdx?_eq_some_iff_getElem.mp hfind
      exact .inl ⟨index, ⟨_, List.getElem?_eq_getElem hlt, beq_iff_eq.mp hkey⟩, rfl⟩
  | none =>
      refine .inr ⟨fun other hother => ?_, rfl⟩
      have hne := List.findIdx?_eq_none_iff.mp hfind other hother
      exact beq_eq_false_iff_ne.mp hne

theorem served_answer (write : Data.Writer) (r : Registry) (call : Call) :
    Served write r [⟨call, (r.answer write call).1⟩] (r.answer write call).2 := by
  rw [answer_eq]
  rcases internBy_cases write call.requested r with ⟨index, hkey, hanswer⟩ | ⟨hfresh, hanswer⟩
  · rw [hanswer]
    exact {
      distinct := id
      grows := List.prefix_refl _
      keys := by
        intro h hh
        rw [List.mem_singleton.mp hh]
        exact hkey
      origin := fun p hp => .inl hp }
  · rw [hanswer]
    exact {
      distinct := by
        intro hdistinct
        rw [Distinct, List.map_append]
        refine List.Nodup.append hdistinct (List.nodup_singleton _) ?_
        rw [List.map_singleton, List.disjoint_singleton]
        intro hmem
        obtain ⟨other, hother, hkey⟩ := List.mem_map.mp hmem
        exact hfresh other hother hkey
      grows := List.prefix_append _ _
      keys := by
        intro h hh
        rw [List.mem_singleton.mp hh]
        exact ⟨call.requested, List.getElem?_concat_length, rfl⟩
      origin := by
        intro p hp
        rcases List.mem_append.mp hp with hp | hp
        · exact .inl hp
        · exact .inr ⟨_, List.mem_singleton_self _, (List.mem_singleton.mp hp).symm⟩ }

theorem Served.append {r r' r'' : Registry} {first second : List Handout}
    (h : Served write r first r') (h' : Served write r' second r'') :
    Served write r (first ++ second) r'' where
  distinct := fun hdistinct => h'.distinct (h.distinct hdistinct)
  grows := h.grows.trans h'.grows
  keys := by
    intro handout hmem
    rcases List.mem_append.mp hmem with hmem | hmem
    · exact (h.keys handout hmem).mono h'.grows
    · exact h'.keys handout hmem
  origin := by
    intro p hp
    rcases h'.origin p hp with hp | ⟨handout, hmem, heq⟩
    · rcases h.origin p hp with hp | ⟨handout, hmem, heq⟩
      · exact .inl hp
      · exact .inr ⟨handout, List.mem_append_left _ hmem, heq⟩
    · exact .inr ⟨handout, List.mem_append_right _ hmem, heq⟩

theorem served_serve (write : Data.Writer) (r : Registry) (calls : List Call) :
    Served write r (r.serve write calls).1 (r.serve write calls).2 := by
  induction calls generalizing r with
  | nil => exact ⟨id, List.prefix_refl _, nofun, fun _ => .inl⟩
  | cons call rest ih => exact (served_answer write r call).append (ih _)

/-- Every call is given one instance, in order. -/
theorem calls_serve (write : Data.Writer) (r : Registry) (calls : List Call) :
    (r.serve write calls).1.map Handout.call = calls := by
  induction calls generalizing r with
  | nil => rfl
  | cons call rest ih =>
      rw [serve, List.map_cons]
      exact congrArg (call :: ·) (ih _)

theorem index_eq_iff {i j : Nat} {k l : String} (hr : r.Distinct write)
    (hi : r.HasKey write i k) (hj : r.HasKey write j l) : i = j ↔ k = l := by
  obtain ⟨shared, hget, hkey⟩ := hi
  obtain ⟨shared', hget', hkey'⟩ := hj
  constructor
  · rintro rfl
    rw [hget, Option.some_inj] at hget'
    rw [← hkey, ← hkey', hget']
  · intro heq
    have hlt : i < (r.instances.map (keyBy write)).length := by
      rw [List.length_map]
      exact (List.getElem?_eq_some_iff.mp hget).1
    have hkeys : (r.instances.map (keyBy write))[i]? = (r.instances.map (keyBy write))[j]? := by
      rw [get?] at hget hget'
      rw [List.getElem?_map, List.getElem?_map, hget, hget', Option.map_some, Option.map_some,
        hkey, hkey', heq]
    exact (List.getElem?_inj hlt hr).mp hkeys

/-! ### The law of a registry -/

/-- Every instance that is handed out holds the values that were asked for, and two calls are
given the same one exactly if they ask for equal values. -/
structure FaithfulBy (write : Data.Writer) (calls : List Call) : Prop where
  holds : ∀ h ∈ (serve write {} calls).1, ∃ shared,
    (serve write {} calls).2.get? h.index = some shared ∧ shared.eqv h.call.requested
  shares : ∀ h ∈ (serve write {} calls).1, ∀ h' ∈ (serve write {} calls).1,
    h.index = h'.index ↔ h.call.requested.eqv h'.call.requested

/-- A registry keeps the permutations apart that it is asked for exactly if their keys do. -/
theorem faithfulBy_iff : FaithfulBy write calls ↔ ∀ c ∈ calls, ∀ c' ∈ calls,
    c.requested.keyBy write = c'.requested.keyBy write ↔ c.requested.eqv c'.requested := by
  have hserved := served_serve write {} calls
  have hcalls := calls_serve write {} calls
  have hdistinct := hserved.distinct List.nodup_nil
  constructor
  · intro hfaithful c hc c' hc'
    rw [← hcalls] at hc hc'
    obtain ⟨h, hh, rfl⟩ := List.mem_map.mp hc
    obtain ⟨h', hh', rfl⟩ := List.mem_map.mp hc'
    rw [← hfaithful.shares h hh h' hh',
      index_eq_iff hdistinct (hserved.keys h hh) (hserved.keys h' hh')]
  · intro htell
    have hmem : ∀ h ∈ (serve write {} calls).1, h.call ∈ calls :=
      fun h hh => hcalls ▸ List.mem_map_of_mem hh
    refine ⟨fun h hh => ?_, fun h hh h' hh' => ?_⟩
    · obtain ⟨shared, hget, hkey⟩ := hserved.keys h hh
      rcases hserved.origin shared (List.mem_of_getElem? hget) with hnone | ⟨h', hh', rfl⟩
      · cases hnone
      · exact ⟨_, hget, (htell h'.call (hmem h' hh') h.call (hmem h hh)).mp hkey⟩
    · rw [index_eq_iff hdistinct (hserved.keys h hh) (hserved.keys h' hh')]
      exact htell h.call (hmem h hh) h'.call (hmem h' hh')

/-- A registry that is asked for permutations without a colon in a name and without a negative
zero keeps them apart and shares the equal ones. -/
theorem faithfulBy_of_plain (hwrite : write.Tells) (hplain : ∀ c ∈ calls, c.requested.Plain) :
    FaithfulBy write calls := by
  rw [faithfulBy_iff]
  intro c hc c' hc'
  rw [eqv_iff_eq (hplain c hc) (hplain c' hc')]
  exact ⟨keyBy_inj hwrite (hplain c hc) (hplain c' hc'), congrArg (keyBy write)⟩

/-- The law for the keys of data values. -/
def Faithful (calls : List Call) : Prop := FaithfulBy Data.text calls

theorem faithful_iff : Faithful calls ↔ ∀ c ∈ calls, ∀ c' ∈ calls,
    c.requested.key = c'.requested.key ↔ c.requested.eqv c'.requested :=
  faithfulBy_iff

theorem faithful_of_plain (hplain : ∀ c ∈ calls, c.requested.Plain) : Faithful calls :=
  faithfulBy_of_plain Data.tells_text hplain

theorem faithful_of_plain_filtered :
    Faithful [.create [("b", .int 2), ("a", .int 1)], .create [("a", .int 1), ("b", .int 2)],
      .filter (ofFields [("a", .int 1), ("b", .int 2), ("c", .float .zero)]) ["a", "b"]] :=
  faithful_of_plain (by decide +kernel)

/-- Two permutations with one key: the second one is given the instance of the first one. -/
theorem not_faithful_colons :
    ¬ Faithful [.create [("a", .int 1), ("b", .int 2)], .create [("a:1;b", .int 2)]] := by
  rw [faithful_iff]
  decide +kernel

/-- The two zeros are equal but have different keys. -/
example : ¬ Faithful [.create [("a", .float .zero)], .create [("a", .float Number.zero.neg)]] := by
  rw [faithful_iff]
  decide +kernel

end Registry

end Permutation

end ScriptMin

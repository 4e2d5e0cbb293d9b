import TachyonEngine.Vm.PropertyEffects

/-!
# The essential invariants of properties

Every operation is a run of changes (`Changes`), and every change respects the properties that are
not configurable and the extensibility of the object (`Respects`). Private names are no properties
in this sense: a removal loses them.
-/

namespace TachyonEngine.Vm

open PropertyStorage Option

open Lib Lib.Attempt
open Relation (ReflTransGen)

namespace PropertyObject

variable {host : PropertyHost} {mem : MemoryRequest → Bool} {obj post : PropertyObject}
  {key : PropertyKey} {desc : PropertyDescriptor}

/-! ## Operations are runs of changes -/

/-- The computation changes a well-formed object by changes, however it ends. -/
abbrev ChangesAt {α : Type} (host : PropertyHost) (run : ObjectM α) (obj : PropertyObject) : Prop :=
  run.KeepsAt (WellFormed host) (Changes host) obj

/-- From every well-formed object. -/
abbrev OnlyChanges {α : Type} (host : PropertyHost) (run : ObjectM α) : Prop :=
  run.Keeps (WellFormed host) (Changes host)

variable {α : Type}

theorem changesAt_bind {β : Type} {first : ObjectM α} {rest : α → ObjectM β}
    (hfirst : ChangesAt host first obj) (hrest : ∀ a, OnlyChanges host (rest a)) :
    ChangesAt host (first >>= rest) obj :=
  KeepsAt.bind (fun _ _ _ => ReflTransGen.trans) hfirst hrest

theorem changesAt_of_ends {run : ObjectM α} {returns : α → PropertyObject → Prop}
    {fails : DescriptorError → PropertyObject → Prop} (h : obj.WellFormed host)
    (hends : run.Ends returns fails obj) (hret : ∀ a post, returns a post → Changes host obj post)
    (hfails : ∀ e post, fails e post → Changes host obj post) : ChangesAt host run obj :=
  KeepsAt.of_ends (fun _ hchanges => hchanges.wellFormed h) hends hret hfails

theorem changesAt_pure (h : obj.WellFormed host) (a : α) :
    ChangesAt host (pure a) obj := ⟨.refl, h⟩

theorem changesAt_throw (h : obj.WellFormed host) (err : DescriptorError) :
    ChangesAt host (throw err : ObjectM α) obj := ⟨.refl, h⟩

variable {idx : Nat}

/-- One key spells an index. -/
theorem key_of_index {other : PropertyKey} (hkey : host.arrayPropertyIndex key = some idx)
    (ho : host.arrayPropertyIndex other = some idx) : other = key :=
  (AtomTable.eq_indexKey ho).1.trans (AtomTable.eq_indexKey hkey).1.symm

variable {val : Value}

section

variable (h : obj.WellFormed host)

include h

theorem change_write (hix : host.arrayPropertyIndex key = some idx) (hlook : obj.lookup key = none)
    (hext : obj.ownProperty host key = none → obj.isExtensible = true)
    (hwrite : obj.DenseWrite idx (some val) post) : Change host obj post := by
  obtain ⟨harray, elements, hbacked, rfl, hvalues⟩ := hwrite
  refine .dense elements hbacked harray ?_
  intro other written hwri
  obtain ⟨i, hi, hv⟩ := bind_eq_some_iff.mp hwri
  by_cases hs : i = idx
  · subst hs
    rw [key_of_index hix hi]
    exact ⟨hlook, hext⟩
  · rw [hvalues, if_neg hs] at hv
    have hd : obj.denseArrayValue host other = some written := by
      rw [denseArrayValue_eq, hi, bind_some, hv]
    refine ⟨h.separate other written hd, ?_⟩
    intro hab
    rw [WellFormed.ownProperty_of_dense hd] at hab
    cases hab

/-- A change of the dense elements that only loses some of them. -/
theorem change_lose {elements : ArrayElements} (hbacked : elements.Backed)
    (harray : obj.isArray = true)
    (hkept : ∀ i val, elements.value i = some val → obj.denseAt i = some val) :
    Change host obj (obj.withElements elements) := by
  refine .dense elements hbacked harray ?_
  intro other written hwri
  obtain ⟨i, hi, hv⟩ := bind_eq_some_iff.mp hwri
  have hd : obj.denseArrayValue host other = some written := by
    rw [denseArrayValue_eq, hi, bind_some, hkept i written hv]
  refine ⟨h.separate other written hd, ?_⟩
  intro hab
  rw [WellFormed.ownProperty_of_dense hd] at hab
  cases hab

theorem change_erase (hwrite : obj.DenseWrite idx none post) : Change host obj post := by
  obtain ⟨harray, elements, hbacked, rfl, hvalues⟩ := hwrite
  refine change_lose h hbacked harray ?_
  intro i val hv
  rw [hvalues] at hv
  split_ifs at hv
  exact hv

theorem changesAt_truncate (length : Nat) : ChangesAt host (truncateDenseArray length) obj := by
  refine changesAt_of_ends h (ends_truncateDense h length) ?_ (fun _ _ hfalse => hfalse.elim)
  rintro _ post (⟨-, rfl⟩ | ⟨elements, harray, hbacked, rfl, hvalues⟩)
  · exact .refl
  · refine .single (change_lose h hbacked harray ?_)
    intro i val hv
    rw [hvalues] at hv
    split at hv
    · exact hv
    · cases hv

theorem changesAt_redefine {prop : OwnProperty} (hf : obj.lookup key = some prop)
    (hdesc : desc.Valid host) :
    ChangesAt host (redefinePresentProperty host mem prop prop.payload desc) obj := by
  obtain ⟨hm, rfl⟩ := lookup_eq_some hf
  refine changesAt_of_ends h (ends_redefinePresentProperty prop desc) ?_ ?_
  · rintro _ post ⟨hpass, rfl, -⟩
    exact .single (.redefine prop _ hf (redefines_of_validate (h.valid prop hm) hdesc hpass))
  · rintro _ post ⟨rfl, -⟩
    exact .refl

theorem Deleted.changes {deleted : Bool} (hdeleted : Deleted host obj key deleted post) :
    Changes host obj post := by
  cases hdeleted with
  | dense spelled present written => exact .single (change_erase h written)
  | absent missing | blocked found fixed => exact .refl
  | @removed prop found configurable =>
    obtain ⟨-, rfl⟩ := lookup_eq_some found
    exact .single (.remove prop found configurable)

theorem changesAt_delete (key : PropertyKey) :
    ChangesAt host (deleteOwnDataProperty host mem key) obj := by
  refine changesAt_of_ends h (ends_delete h key) (fun _ _ hdeleted => hdeleted.changes h) ?_
  rintro _ post ⟨rfl, -⟩
  exact .refl

end

theorem safeIntegerValue_ne (n : Nat) : safeIntegerValue n ≠ hole := by
  have himmediate : (safeIntegerValue n).asImmediate = none := by
    rw [safeIntegerValue]
    split
    · rfl
    · rfl
  intro heq
  rw [heq] at himmediate
  exact absurd himmediate (by decide)

/-! ### The length of an Array -/

theorem changes_redefineLength (hdesc : desc.Valid host) :
    OnlyChanges host (redefineArrayLength host mem desc) := by
  intro obj h
  simp only [redefineArrayLength, KeepsAt]
  rw [ends_bind, ends_get]
  cases hf : obj.lookup host.lengthKey with
  | none => exact changesAt_throw h _
  | some prop =>
    dsimp only
    rw [h.stored_lookup hf]
    exact changesAt_redefine h hf hdesc

theorem changes_deleteShrunk (keys : List (Nat × PropertyKey)) :
    OnlyChanges host (deleteShrunk host mem keys) := by
  induction keys with
  | nil => exact fun obj h => changesAt_pure h none
  | cons ent rest ih =>
    intro obj h
    refine changesAt_bind (changesAt_delete h ent.2) ?_
    intro deleted
    cases deleted with
    | true => exact ih
    | false => exact fun obj h => changesAt_pure h _

theorem changes_shrinkKeys (newLength : Nat) :
    OnlyChanges host (arrayShrinkKeys host mem newLength) := by
  intro obj h
  simp only [arrayShrinkKeys, KeepsAt]
  rw [ends_bind, ends_request]
  split
  · exact ⟨.refl, h⟩
  · exact ⟨.refl, h⟩

theorem changes_setLengthCanonical (newLength : Nat) (desc : PropertyDescriptor) :
    OnlyChanges host (arraySetLengthDescriptorCanonical host mem desc newLength) := by
  have hval : ∀ {data : DataPropertyDescriptor} {n : Nat} {writable : Option Bool},
      (PropertyDescriptor.data
        { data with value := some (safeIntegerValue n), writable := writable }).Valid host := by
    intro data n writable hhole
    exact safeIntegerValue_ne n (some.inj hhole)
  intro obj h
  rw [arraySetLengthDescriptorCanonical, KeepsAt, ends_bind, ends_get]
  split
  · exact changesAt_throw h _
  · cases desc with
    | generic desc | accessor desc => exact changesAt_throw h _
    | data data =>
      dsimp only
      split
      · exact changes_redefineLength hval obj h
      · split
        · exact changesAt_throw h _
        · -- the new length, the deletions, and perhaps the length of what is left
          have hshrunk : (PropertyDescriptor.data
              (if (some (safeIntegerValue newLength), data.writable).2 = some false then
                { data with value := some (safeIntegerValue newLength), writable := some true }
              else { data with value := some (safeIntegerValue newLength) })).Valid host := by
            split
            · exact hval
            · exact hval
          refine changesAt_bind (changes_redefineLength hshrunk obj h) ?_
          intro _ obj h
          refine changesAt_bind (changes_shrinkKeys newLength obj h) ?_
          intro keys obj h
          refine changesAt_bind (changes_deleteShrunk keys obj h) ?_
          intro blocked obj h
          cases blocked with
          | some idx =>
            refine changesAt_bind (changesAt_truncate h (idx + 1)) ?_
            intro _ obj h
            refine changesAt_bind (changes_redefineLength ?_ obj h) ?_
            · exact hval
            · exact fun _ obj h => changesAt_throw h _
          | none =>
            refine changesAt_bind (changesAt_truncate h newLength) ?_
            intro _ obj h
            split
            · refine changes_redefineLength ?_ obj h
              exact fun hhole => by cases hhole
            · exact changesAt_pure h _

theorem changes_setLength (hdesc : desc.Valid host) :
    OnlyChanges host (arraySetLengthDescriptor host mem desc) := by
  intro obj h
  simp only [arraySetLengthDescriptor]
  split
  · exact changes_redefineLength hdesc obj h
  · split
    · exact changesAt_throw h _
    · exact changes_setLengthCanonical _ desc obj h

theorem changes_setLengthValue (hv : val ≠ hole) :
    OnlyChanges host (setArrayLengthValue host mem val) :=
  changes_setLength fun hhole => hv (some.inj hhole)

theorem changes_grow (key : PropertyKey) :
    OnlyChanges host (growArrayLengthForIndexProperty host mem key) := by
  intro obj h
  rw [growArrayLengthForIndexProperty, KeepsAt, ends_bind, ends_get]
  split
  · split
    · exact changesAt_pure h _
    · dsimp only
      split
      · exact changes_setLengthValue (safeIntegerValue_ne _) obj h
      · exact changesAt_pure h _
  · exact changesAt_pure h _

/-! ### Creating -/

variable {candidate : Option (Nat × Value)}

/-- The attempt to make a dense element of a missing property. -/
theorem ends_tryDense (h : obj.WellFormed host) (hcand : ∀ idx val, candidate = some (idx, val) →
    host.arrayPropertyIndex key = some idx ∧ val ≠ hole) :
    Ends (tryDenseArrayValue mem candidate) (fun stored post =>
        if stored then ∃ idx val, candidate = some (idx, val) ∧ obj.DenseWrite idx (some val) post
        else post = obj)
      (fun _ post => post = obj) obj := by
  cases candidate with
  | none => exact rfl
  | some ent =>
    obtain ⟨idx, val⟩ := ent
    obtain ⟨-, hv⟩ := hcand idx val rfl
    refine (ends_setDense h hv).imp ?_ (fun _ _ hs => hs)
    intro stored post hsto
    cases stored with
    | true => exact ⟨idx, val, rfl, hsto⟩
    | false => exact hsto

theorem denseCandidate_spec (hdesc : desc.Valid host)
    (hcand : denseCandidate host key desc = some (idx, val)) :
    host.arrayPropertyIndex key = some idx ∧ val ≠ hole := by
  simp only [denseCandidate] at hcand
  split at hcand
  next idx' val' hi =>
    split at hcand
    · cases hcand
      exact ⟨hi, fun hhole => hdesc (congrArg some hhole)⟩
    · cases hcand
  · cases hcand

/-- A missing property is created as a dense element or in the list, and then the length grows. -/
theorem changesAt_create (h : obj.WellFormed host) (hext : obj.isExtensible = true) (hab :
    obj.ownProperty host key = none) (hcand : ∀ idx val, candidate = some (idx, val) →
    host.arrayPropertyIndex key = some idx ∧ val ≠ hole) {publish : ObjectM Unit} (hpublish :
    ChangesAt host publish obj) :
    ChangesAt host (do
        let stored ← tryDenseArrayValue mem candidate
        if stored then growArrayLengthForIndexProperty host mem key
        else do
          publish
          growArrayLengthForIndexProperty host mem key) obj := by
  simp only [KeepsAt]
  rw [ends_bind]
  refine (ends_tryDense h hcand).imp ?_ ?_
  · intro stored post hsto
    cases stored with
    | true =>
      obtain ⟨idx, val, heq, hwrite⟩ := hsto
      have hch := change_write h (hcand idx val heq).1 (h.absent_iff.mp hab).2
        (fun _ => hext) hwrite
      refine (changes_grow key post (hch.wellFormed h)).imp ?_ ?_
      · rintro _ final ⟨hchanges, hval⟩
        exact ⟨.head hch hchanges, hval⟩
      · rintro _ final ⟨hchanges, hval⟩
        exact ⟨.head hch hchanges, hval⟩
    | false =>
      obtain rfl : post = obj := hsto
      exact changesAt_bind hpublish fun _ => changes_grow key
  · rintro _ post rfl
    exact ⟨.refl, h⟩

theorem changesAt_defineMissing (h : obj.WellFormed host) (hext : obj.isExtensible = true)
    (hab : obj.ownProperty host key = none) (hdesc : desc.Valid host) :
    ChangesAt host (defineMissingProperty host mem key desc) obj := by
  refine changesAt_create h hext hab ?_ ?_
  · exact fun idx val => denseCandidate_spec hdesc
  · refine changesAt_of_ends h (ends_defineMissingRaw (h.absent_iff.mp hab).2 desc) ?_ ?_
    · rintro _ post ⟨rfl, -⟩
      exact .single (.add (created key desc) hab hext (valid_created hdesc key))
    · rintro _ post rfl
      exact .refl

/-! ### Dense properties -/

variable {cur : Value}

theorem valid_preserved (hcur : cur ≠ hole) (hdesc : desc.Valid host) :
    (preserveDensePropertyFields desc cur).Valid host := by
  cases desc with
  | generic desc => exact fun hhole => hcur (some.inj hhole)
  | data desc =>
    intro hhole
    have hhole := some.inj hhole
    cases hfield : desc.value with
    | none =>
      rw [hfield] at hhole
      exact hcur hhole
    | some val =>
      rw [hfield] at hhole
      exact hdesc (hhole ▸ hfield)
  | accessor desc => exact hdesc

section

variable (h : obj.WellFormed host)

include h

theorem denseAt_ne_hole (hd : obj.denseAt idx = some val) : val ≠ hole := by
  obtain ⟨elements, helems, hv⟩ := bind_eq_some_iff.mp hd
  rw [(h.backed elements helems).value_eq] at hv
  have hhole := (filter_eq_some_iff.mp hv).2
  rintro rfl
  exact absurd hhole (by decide)

omit h in
/-- Moving an index to the list is one change. -/
theorem change_convert (prop : OwnProperty) (hd : obj.denseArrayValue host prop.key = some val)
    (hval : prop.payload.Valid host) (hix : host.arrayPropertyIndex prop.key = some idx)
    (hwrite : (obj.withProperties (obj.properties ++ [prop])).DenseWrite idx none post) :
    Change host obj post := by
  obtain ⟨harray, elements, hbacked, rfl, hvalues⟩ := hwrite
  refine .convert elements prop hbacked harray (by rw [hd]; rfl) hval ?_
  intro other written hwri
  obtain ⟨i, hi, hv⟩ := bind_eq_some_iff.mp hwri
  rw [hvalues] at hv
  split_ifs at hv with hne
  refine ⟨?_, ?_⟩
  · rintro rfl
    exact hne (some.inj (hi.symm.trans hix))
  · rw [denseArrayValue_eq, hi, bind_some]
    rw [denseAt_withProperties] at hv
    rw [hv]
    rfl

theorem ends_defineDense (hd : obj.denseArrayValue host key = some cur) (hdesc : desc.Valid host) :
    Ends (defineDenseProperty host mem key cur desc)
      (fun _ post => post = obj ∨ ∃ idx, host.arrayPropertyIndex key = some idx ∧
        ((∃ val, desc.value = some val ∧ obj.DenseWrite idx (some val) post) ∨ (obj.withProperties
            (obj.properties ++ [created key (preserveDensePropertyFields desc cur)])).DenseWrite
              idx none post)) (fun _ post => post = obj) obj := by
  obtain ⟨idx, hi, helement⟩ := bind_eq_some_iff.mp hd
  have hlook := h.separate key cur hd
  simp only [defineDenseProperty]
  split
  · split
    next idx' val hi' hv =>
      obtain rfl : idx' = idx := some.inj (hi'.symm.trans hi)
      have hwri : val ≠ hole := by
        rintro rfl
        cases desc with
        | data desc => exact hdesc hv
        | generic desc | accessor desc => cases hv
      rw [ends_bind]
      refine (ends_setDense h hwri).imp ?_ (fun _ _ hs => hs)
      intro stored post hsto
      cases stored with
      | true => exact .inr ⟨idx', hi, .inl ⟨val, hv, hsto⟩⟩
      | false => exact .inl hsto
    · exact .inl rfl
  · rw [ends_bind]
    refine (ends_defineMissingRaw hlook _).imp ?_ (fun _ _ hs => hs)
    rintro _ middle ⟨rfl, -⟩
    rw [ends_bind]
    refine Ends.imp (ends_deleteDense ?_ key) ?_ (fun _ _ hfalse => hfalse.elim)
    · exact h.backed
    intro deleted post hdeleted
    cases deleted with
    | true =>
      obtain ⟨idx', hi', -, hwrite⟩ := hdeleted
      exact .inr ⟨idx', hi', .inr hwrite⟩
    | false =>
      have hab := hdeleted.2
      rw [denseArrayValue_withProperties, hd] at hab
      cases hab

theorem changesAt_defineDense (hd : obj.denseArrayValue host key = some cur)
    (hdesc : desc.Valid host) : ChangesAt host (defineDenseProperty host mem key cur desc) obj := by
  obtain ⟨idx, hi, helement⟩ := bind_eq_some_iff.mp hd
  refine changesAt_of_ends h (ends_defineDense h hd hdesc) ?_ ?_
  · rintro _ post (rfl | ⟨idx', hi', ⟨val, -, hwrite⟩ | hwrite⟩)
    · exact .refl
    · refine .single (change_write h hi' (h.separate key cur hd) ?_ hwrite)
      intro hab
      rw [WellFormed.ownProperty_of_dense hd] at hab
      cases hab
    · have hcur := denseAt_ne_hole h helement
      exact .single (change_convert (created key _) hd
        (valid_created (valid_preserved hcur hdesc) key) hi' hwrite)
  · rintro _ post rfl
    exact .refl

/-! ### The three operations -/

theorem changesAt_defineOwn (hdesc : desc.Valid host) :
    ChangesAt host (defineOwnProperty host mem key desc) obj := by
  simp only [defineOwnProperty, KeepsAt]
  rw [ends_bind, ends_get]
  cases hd : obj.denseArrayValue host key with
  | some cur => exact changesAt_defineDense h hd hdesc
  | none =>
    cases hf : obj.lookup key with
    | some prop =>
      simp only [bind_some, h.stored_lookup hf]
      exact changesAt_bind (changesAt_redefine h hf hdesc) fun _ => changes_grow key
    | none =>
      simp only [bind_none]
      split_ifs with hext
      · exact changesAt_throw h _
      · rw [Bool.not_eq_true', Bool.not_eq_false] at hext
        exact changesAt_defineMissing h hext (h.absent_iff.mpr ⟨hd, hf⟩) hdesc

omit h in
theorem isWritableData_iff {prop : OwnProperty} : isWritableData prop = true ↔
    prop.attributes.writable = true ∧ ∃ val, prop.stored = some (.data val) := by
  rw [isWritableData, Bool.and_eq_true]
  refine and_congr_right ?_
  intro _
  cases prop.stored with
  | none => exact ⟨fun h => absurd h Bool.false_ne_true, fun ⟨_, h⟩ => nomatch h⟩
  | some stored =>
    cases stored with
    | data val => exact ⟨fun _ => ⟨val, rfl⟩, fun _ => rfl⟩
    | accessor getter setter =>
      exact ⟨fun h => absurd h Bool.false_ne_true, fun ⟨_, h⟩ => nomatch h⟩

omit h in
/-- A mapped index is written to its register, and nothing else happens. -/
theorem ends_sync (key : PropertyKey) (val : Value) :
    Ends (syncMappedArgument host key val) (fun _ post =>
        (obj.mappedArgumentValue host key = none ∧ post = obj) ∨
          ∃ idx, obj.mappedArgumentFrame host key = some idx ∧
            (obj.mappedArgumentValue host key).isSome ∧
            post = { obj with registers := Function.update obj.registers idx val })
      (fun _ _ => False) obj := by
  rw [syncMappedArgument, ends_bind, ends_get]
  cases hf : obj.lookup key with
  | none =>
    refine .inl ⟨?_, rfl⟩
    rw [mappedArgumentValue, hf]
    cases obj.mappedArgumentFrame host key <;> rfl
  | some prop =>
    dsimp only
    split_ifs with hw
    · cases hfr : obj.mappedArgumentFrame host key with
      | none =>
        refine .inl ⟨?_, rfl⟩
        rw [mappedArgumentValue, hfr]
      | some idx =>
        refine ends_modify _ |>.mpr (.inr ⟨idx, rfl, ?_, rfl⟩)
        rw [mappedArgumentValue, hfr, hf]
        dsimp only
        rw [if_pos hw]
        rfl
    · refine .inl ⟨?_, rfl⟩
      rw [mappedArgumentValue, hf]
      cases obj.mappedArgumentFrame host key with
      | none => rfl
      | some idx => exact if_neg hw

theorem change_register (hv : val ≠ hole) :
    Change host obj { obj with registers := Function.update obj.registers idx val } := by
  refine .register _ ?_
  intro cnt hc i
  by_cases hi : i = idx
  · rw [hi, Function.update_self]
    exact hv
  · rw [Function.update_of_ne hi]
    exact h.registers cnt hc i

omit h in
theorem changes_sync (key : PropertyKey) (hv : val ≠ hole) :
    OnlyChanges host (syncMappedArgument host key val) := by
  intro obj h
  refine changesAt_of_ends h (ends_sync key val) ?_ (fun _ _ hfalse => hfalse.elim)
  rintro _ post (⟨-, rfl⟩ | ⟨idx, -, -, rfl⟩)
  · exact .refl
  · exact .single (change_register h hv)

theorem mappedArgumentValue_ne (hmapped : obj.mappedArgumentValue host key = some val) :
    val ≠ hole := by
  simp only [mappedArgumentValue] at hmapped
  split at hmapped
  next idx prop hfr _ =>
    split at hmapped
    · cases hmapped
      simp only [mappedArgumentFrame] at hfr
      split at hfr
      next cnt hc =>
        exact h.registers cnt hc idx
      · cases hfr
    · cases hmapped
  · cases hmapped

end

end PropertyObject

/-- A caller hands over no hole. -/
def PropertyDescriptor.Proper (desc : PropertyDescriptor) : Prop :=
  desc.value ≠ some PropertyStorage.hole

instance (desc : PropertyDescriptor) : Decidable desc.Proper := inferInstanceAs (Decidable (_ ≠ _))

namespace PropertyObject

variable {host : PropertyHost} {mem : MemoryRequest → Bool} {obj post : PropertyObject}
  {key : PropertyKey} {desc : PropertyDescriptor}

theorem proper_withMappedValue (h : obj.WellFormed host) (hproper : desc.Proper) :
    (obj.withMappedValue host key desc).Proper := by
  cases desc with
  | generic desc | accessor desc => exact hproper
  | data desc =>
    simp only [withMappedValue]
    split
    · intro hhole
      exact mappedArgumentValue_ne h hhole rfl
    · exact hproper

/-- The check of the accessor fields lets valid descriptors pass only. -/
theorem ends_validateFields (hproper : desc.Proper) : Ends (validateAccessorFields host desc)
      (fun _ post => post = obj ∧ desc.Valid host) (fun _ post => post = obj) obj := by
  cases desc with
  | generic desc => exact ⟨rfl, trivial⟩
  | data desc => exact ⟨rfl, hproper⟩
  | accessor desc =>
    simp only [validateAccessorFields]
    rw [ends_bind]
    refine (ends_validateCallable _).imp ?_ (fun _ _ hs => hs)
    rintro _ middle ⟨rfl, hgetter⟩
    refine (ends_validateCallable _).imp ?_ (fun _ _ hs => hs)
    rintro _ post ⟨rfl, hsetter⟩
    exact ⟨rfl, hgetter, hsetter⟩

theorem ends_guardGrowth (idx : Nat) :
    Ends (guardArrayIndexGrowth host idx) (fun _ post => post = obj ∧
        ∃ number writable, obj.arrayLength host = some (number, writable) ∧
          (number.toUInt32.toNat ≤ idx → writable = some true)) (fun _ post => post = obj) obj := by
  rw [guardArrayIndexGrowth, ends_bind, ends_get]
  split
  · exact rfl
  next number writable hlen =>
    split_ifs with hguard
    · exact rfl
    · refine ⟨rfl, number, writable, hlen, ?_⟩
      intro hi
      by_contra hw
      exact hguard ⟨hi, hw⟩

theorem ends_guardIndex (key : PropertyKey) :
    Ends (guardArrayIndex host key) (fun _ post => post = obj ∧
        (obj.isArray = true → ∀ idx, host.arrayPropertyIndex key = some idx →
          ∃ number writable, obj.arrayLength host = some (number, writable) ∧
            (number.toUInt32.toNat ≤ idx → writable = some true)))
      (fun _ post => post = obj) obj := by
  rw [guardArrayIndex, ends_bind, ends_get]
  cases hix : host.arrayPropertyIndex key with
  | none => exact ⟨rfl, fun _ _ h => nomatch h⟩
  | some idx =>
    dsimp only
    split_ifs with harray
    · refine (ends_guardGrowth idx).imp ?_ (fun _ _ hs => hs)
      rintro _ post ⟨rfl, hlen⟩
      refine ⟨rfl, ?_⟩
      intro _ i hi
      obtain rfl := some.inj hi
      exact hlen
    · exact ⟨rfl, fun h => absurd h harray⟩

theorem changes_define (key : PropertyKey) (hproper : desc.Proper) :
    OnlyChanges host (defineProperty host mem key desc) := by
  intro obj h
  simp only [defineProperty, KeepsAt]
  rw [ends_bind, ends_get]
  have hproper : (obj.withMappedValue host key desc).Proper := proper_withMappedValue h hproper
  generalize obj.withMappedValue host key desc = desc at hproper
  have hsync : ChangesAt host (syncDescriptorValue host key desc) obj := by
    simp only [syncDescriptorValue]
    cases hv : desc.value with
    | none => exact changesAt_pure h _
    | some val =>
      refine changes_sync key ?_ obj h
      rintro rfl
      exact hproper hv
  refine changesAt_bind hsync ?_
  intro _ obj h
  simp only [KeepsAt]
  rw [ends_bind]
  refine (ends_validateFields hproper).imp ?_ ?_
  · rintro _ post ⟨rfl, hdesc⟩
    split
    · exact changes_setLength hdesc post h
    · rw [ends_bind]
      refine (ends_guardIndex key).imp ?_ ?_
      · rintro _ final ⟨rfl, -⟩
        exact changesAt_defineOwn h hdesc
      · rintro _ final rfl
        exact ⟨.refl, h⟩
  · rintro _ post rfl
    exact ⟨.refl, h⟩

variable {val : Value}

/-- The candidate of an assignment. -/
theorem candidate_assigned (hv : val ≠ hole) :
    ∀ idx written, (host.arrayPropertyIndex key).map (fun idx => (idx, val)) = some (idx, written) →
      host.arrayPropertyIndex key = some idx ∧ written ≠ hole := by
  intro idx written hcand
  obtain ⟨idx', hi, hpair⟩ := map_eq_some_iff.mp hcand
  cases hpair
  exact ⟨hi, hv⟩

theorem changesAt_createData (h : obj.WellFormed host) (hext : obj.isExtensible = true)
    (hab : obj.ownProperty host key = none) (hv : val ≠ hole) :
    ChangesAt host (createDataProperty host mem key val) obj := by
  refine changesAt_create h hext hab (candidate_assigned hv) ?_
  refine changesAt_of_ends h (ends_add _) ?_ ?_
  · rintro _ post ⟨rfl, -⟩
    exact .single (.add ⟨key, .defaultData, .data val⟩ hab hext hv)
  · rintro _ post rfl
    exact .refl

/-- An assignment in place. -/
theorem change_update {prop : OwnProperty} (hf : obj.lookup key = some prop)
    {cur : Value} (hpay : prop.payload = .data cur)
    (hw : prop.attributes.writable = true) (hv : val ≠ hole) : Change host obj
      (obj.withProperties (replaced { prop with payload := .data val } obj.properties)) := by
  obtain ⟨hm, rfl⟩ := lookup_eq_some hf
  refine .redefine prop { prop with payload := .data val } hf ⟨rfl, hv, ?_⟩
  intro hfixed
  refine ⟨hfixed, rfl, ?_⟩
  simp only [SameContent, hpay]
  intro hro
  rw [hw] at hro
  cases hro

theorem changes_set (key : PropertyKey) (hv : val ≠ hole) :
    OnlyChanges host (setOwnDataProperty host mem key val) := by
  intro obj h
  refine changesAt_bind (changes_sync key hv obj h) ?_
  intro _ obj h
  simp only [KeepsAt]
  rw [ends_bind, ends_get]
  split
  · exact changes_setLengthValue hv obj h
  · split
    next idx cur hi hd =>
      rw [ends_bind]
      refine (ends_setDense h hv).imp ?_ ?_
      · intro stored post hsto
        have hchanges : Changes host obj post := by
          cases stored with
          | true =>
            refine .single (change_write h hi (h.separate key cur hd) ?_ hsto)
            intro hab
            rw [WellFormed.ownProperty_of_dense hd] at hab
            cases hab
          | false =>
            obtain rfl : post = obj := hsto
            exact .refl
        refine (changes_grow key post (hchanges.wellFormed h)).imp ?_ ?_
        · rintro _ final ⟨hgrown, hval⟩
          exact ⟨hchanges.trans hgrown, hval⟩
        · rintro _ final ⟨hgrown, hval⟩
          exact ⟨hchanges.trans hgrown, hval⟩
      · rintro _ post rfl
        exact ⟨.refl, h⟩
    next hnotDense =>
      split
      next prop hf =>
        rw [h.stored_lookup hf]
        cases hpay : prop.payload with
        | data cur =>
          dsimp only
          split_ifs with hw
          · have hch : Change host obj _ := change_update hf hpay hw hv
            exact ⟨.single hch, hch.wellFormed h⟩
          · exact changesAt_throw h _
        | accessor getter setter => exact changesAt_throw h _
      next hmis =>
        split_ifs with hext
        · exact changesAt_throw h _
        · rw [Bool.not_eq_true', Bool.not_eq_false] at hext
          refine changesAt_createData h hext (h.absent_iff.mpr ⟨?_, hmis⟩) hv
          rw [denseArrayValue_eq]
          cases hi : host.arrayPropertyIndex key with
          | none => rfl
          | some idx =>
            rw [bind_some]
            cases helement : obj.denseAt idx with
            | none => rfl
            | some cur =>
              refine absurd ?_ (hnotDense idx cur hi)
              rw [denseArrayValue_eq, hi, bind_some, helement]

/-! ## What a change respects -/

/-- The essential invariants, as a relation between an earlier and a later state. -/
structure Respects (host : PropertyHost) (before post : PropertyObject) : Prop where
  fixed : ∀ key property, key.isPrivate = false → before.ownProperty host key = some property →
    property.attributes.configurable = false →
    ∃ later, post.ownProperty host key = some later ∧ later.attributes.configurable = false ∧
      later.attributes.enumerable = property.attributes.enumerable ∧ SameContent host property later
  closed : before.isExtensible = false → post.isExtensible = false ∧
    ∀ key, before.ownProperty host key = none → post.ownProperty host key = none

theorem sameContent_refl (prop : OwnProperty) : SameContent host prop prop := by
  simp only [SameContent]
  cases prop.payload with
  | data val => exact fun hro => ⟨hro, PropertyHost.sameValue_refl val⟩
  | accessor getter setter => exact ⟨rfl, rfl⟩

theorem SameContent.trans {first second third : OwnProperty} (h : SameContent host first second)
    (h' : SameContent host second third) : SameContent host first third := by
  simp only [SameContent] at h h' ⊢
  cases hfirst : first.payload with
  | data val =>
    cases hsec : second.payload with
    | data val' =>
      cases hthird : third.payload with
      | data val'' =>
        simp only [hfirst, hsec, hthird] at h h' ⊢
        intro hro
        obtain ⟨hro, hs⟩ := h hro
        obtain ⟨hro, hs'⟩ := h' hro
        exact ⟨hro, PropertyHost.sameValue_trans hs' hs⟩
      | accessor getter setter => simp only [hsec, hthird] at h'
    | accessor getter setter => simp only [hfirst, hsec] at h
  | accessor getter setter =>
    cases hsec : second.payload with
    | data val' => simp only [hfirst, hsec] at h
    | accessor getter' setter' =>
      cases hthird : third.payload with
      | data val'' => simp only [hsec, hthird] at h'
      | accessor getter'' setter'' =>
        simp only [hfirst, hsec, hthird] at h h' ⊢
        exact ⟨h'.1.trans h.1, h'.2.trans h.2⟩

theorem Respects.refl (obj : PropertyObject) : Respects host obj obj :=
  ⟨fun _ prop _ hf hfixed => ⟨prop, hf, hfixed, rfl, sameContent_refl prop⟩,
    fun hcl => ⟨hcl, fun _ hab => hab⟩⟩

theorem Respects.trans {first second third : PropertyObject} (h : Respects host first second)
    (h' : Respects host second third) : Respects host first third := by
  refine ⟨?_, ?_⟩
  · intro key prop hpub hf hfixed
    obtain ⟨middle, hmid, hfixed, henumerable, hs⟩ := h.fixed key prop hpub hf hfixed
    obtain ⟨later, hlat, hfixed, henumerable', hs'⟩ := h'.fixed key middle hpub hmid hfixed
    exact ⟨later, hlat, hfixed, henumerable'.trans henumerable, hs.trans hs'⟩
  · intro hcl
    obtain ⟨hcl, hab⟩ := h.closed hcl
    obtain ⟨hcl', hab'⟩ := h'.closed hcl
    exact ⟨hcl', fun key hkey => hab' key (hab key hkey)⟩

/-- A change that leaves the properties of other keys alone, and of its own key keeps what has to be
kept. -/
theorem respects_of_point (tgt : PropertyKey) (hext : post.isExtensible = obj.isExtensible)
    (hos : ∀ key, key ≠ tgt → key.isPrivate = false →
      post.ownProperty host key = obj.ownProperty host key)
    (hmis : ∀ key, key ≠ tgt → obj.ownProperty host key = none → post.ownProperty host key = none)
    (hfixed : ∀ prop, obj.ownProperty host tgt = some prop → prop.attributes.configurable = false →
      ∃ later, post.ownProperty host tgt = some later ∧ Redefines host prop later)
    (hcl : obj.ownProperty host tgt = none → post.ownProperty host tgt = none ∨
      obj.isExtensible = true) : Respects host obj post := by
  refine ⟨?_, ?_⟩
  · intro key prop hpub hf hkept
    by_cases hkey : key = tgt
    · subst hkey
      obtain ⟨later, hlat, hredefines⟩ := hfixed prop hf hkept
      exact ⟨later, hlat, hredefines.kept hkept⟩
    · exact ⟨prop, (hos key hkey hpub).trans hf, hkept, rfl, sameContent_refl prop⟩
  · intro hnot
    refine ⟨hext.trans hnot, ?_⟩
    intro key hab
    by_cases hkey : key = tgt
    · subst hkey
      rcases hcl hab with hn | hopen
      · exact hn
      · rw [hnot] at hopen
        cases hopen
    · exact hmis key hkey hab

/-- A property in the list of an object without a dense element for it. -/
theorem ownProperty_withProperties (h : obj.WellFormed host) {properties : List OwnProperty}
    (ha : (obj.withProperties properties).WellFormed host) (key : PropertyKey)
    (hs : (obj.withProperties properties).lookup key = obj.lookup key) :
    (obj.withProperties properties).ownProperty host key = obj.ownProperty host key := by
  cases hd : obj.denseArrayValue host key with
  | some val =>
    rw [WellFormed.ownProperty_of_dense hd, WellFormed.ownProperty_of_dense]
    rw [denseArrayValue_withProperties, hd]
  | none =>
    rw [h.ownProperty_of_none hd, ha.ownProperty_of_none, hs]
    rw [denseArrayValue_withProperties, hd]

theorem Change.respects (h : obj.WellFormed host) (hch : Change host obj post) :
    Respects host obj post := by
  have ha := hch.wellFormed h
  cases hch with
  | add prop absent extensible valid =>
    obtain ⟨-, hnew⟩ := h.absent_iff.mp absent
    have hos : ∀ key, key ≠ prop.key →
        (obj.withProperties (obj.properties ++ [prop])).ownProperty host key =
          obj.ownProperty host key := by
      intro key hkey
      apply ownProperty_withProperties h ha
      rw [lookup_append hnew, if_neg hkey]
    refine respects_of_point prop.key rfl (fun key hkey _ => hos key hkey) ?_ ?_
      (fun _ => .inr extensible)
    · intro key hkey hab
      rw [hos key hkey, hab]
    · intro found hf
      rw [absent] at hf
      cases hf
  | redefine pre published found redefines =>
    have hf : obj.lookup published.key = some pre := redefines.key_eq ▸ found
    have hos : ∀ key, key ≠ published.key →
        (obj.withProperties (replaced published obj.properties)).ownProperty host key =
          obj.ownProperty host key := by
      intro key hkey
      apply ownProperty_withProperties h ha
      rw [lookup_replaced hf, if_neg hkey]
    have hpublished : (obj.withProperties
        (replaced published obj.properties)).ownProperty host published.key = some published := by
      apply ha.ownProperty_of_lookup
      rw [lookup_replaced hf, if_pos rfl]
    refine respects_of_point published.key rfl (fun key hkey _ => hos key hkey) ?_ ?_ ?_
    · intro key hkey hab
      rw [hos key hkey, hab]
    · intro prop hproperty _
      rw [h.ownProperty_of_lookup hf] at hproperty
      cases hproperty
      exact ⟨published, hpublished, redefines⟩
    · intro hab
      rw [h.ownProperty_of_lookup hf] at hab
      cases hab
  | remove prop found configurable =>
    have hlook := fun key => lookup_retained h.nodup prop.key key
    refine respects_of_point prop.key rfl ?_ ?_ ?_ ?_
    · intro key hkey hpub
      apply ownProperty_withProperties h ha
      rw [hlook, if_neg]
      rintro (heq | hpriv)
      · exact hkey heq
      · rw [hpub] at hpriv
        cases hpriv
    · intro key _ hab
      obtain ⟨hd, hn⟩ := h.absent_iff.mp hab
      refine ha.absent_iff.mpr ⟨hd, ?_⟩
      rw [hlook, hn, ite_self]
    · intro old hold hfixed
      rw [h.ownProperty_of_lookup found] at hold
      cases hold
      rw [configurable] at hfixed
      cases hfixed
    · intro hab
      rw [h.ownProperty_of_lookup found] at hab
      cases hab
  | dense elements backed array guarded =>
    -- every property of the list keeps its place, and the dense ones are configurable
    have hlist : ∀ key prop, obj.lookup key = some prop →
        (obj.withElements elements).ownProperty host key = some prop := by
      intro key prop hf
      exact ha.ownProperty_of_lookup hf
    refine ⟨?_, ?_⟩
    · intro key prop _ hf hfixed
      cases hd : obj.denseArrayValue host key with
      | some val =>
        rw [WellFormed.ownProperty_of_dense hd] at hf
        cases hf
        cases hfixed
      | none =>
        rw [h.ownProperty_of_none hd] at hf
        exact ⟨prop, hlist key prop hf, hfixed, rfl, sameContent_refl prop⟩
    · intro hcl
      refine ⟨hcl, ?_⟩
      intro key hab
      refine ha.absent_iff.mpr ⟨?_, (h.absent_iff.mp hab).2⟩
      rw [denseArrayValue_withElements]
      cases hnew : (host.arrayPropertyIndex key).bind elements.value with
      | none => rfl
      | some val =>
        have hopen := (guarded key val hnew).2 hab
        rw [hcl] at hopen
        cases hopen
  | convert elements prop backed array dense valid others =>
    obtain ⟨cur, hd⟩ := isSome_iff_exists.mp dense
    have hnew := h.separate prop.key cur hd
    refine ⟨?_, ?_⟩
    · intro key found _ hf hfixed
      have hkey : obj.lookup key = some found := by
        cases hkeyDense : obj.denseArrayValue host key with
        | some val =>
          rw [WellFormed.ownProperty_of_dense hkeyDense] at hf
          cases hf
          cases hfixed
        | none =>
          rw [h.ownProperty_of_none hkeyDense] at hf
          exact hf
      refine ⟨found, ha.ownProperty_of_lookup ?_, hfixed, rfl, sameContent_refl found⟩
      rw [lookup_withElements, lookup_append hnew, if_neg, hkey]
      rintro rfl
      rw [hnew] at hkey
      cases hkey
    · intro hcl
      refine ⟨hcl, ?_⟩
      intro key hab
      obtain ⟨hkeyDense, hn⟩ := h.absent_iff.mp hab
      have hkey : key ≠ prop.key := by
        rintro rfl
        rw [hd] at hkeyDense
        cases hkeyDense
      refine ha.absent_iff.mpr ⟨?_, ?_⟩
      · rw [denseArrayValue_withElements]
        cases hl : (host.arrayPropertyIndex key).bind elements.value with
        | none => rfl
        | some val =>
          have hpres := (others key val hl).2
          rw [hkeyDense] at hpres
          cases hpres
      · rw [lookup_withElements, lookup_append hnew, if_neg hkey, hn]
  | register registers valid =>
    exact ⟨fun _ prop _ hf hfixed =>
        ⟨prop, hf, hfixed, rfl, sameContent_refl prop⟩,
      fun hcl => ⟨hcl, fun _ hab => hab⟩⟩
  | preventExtensions =>
    exact ⟨fun _ prop _ hf hfixed =>
        ⟨prop, hf, hfixed, rfl, sameContent_refl prop⟩,
      fun _ => ⟨rfl, fun _ hab => hab⟩⟩

theorem Changes.respects (h : obj.WellFormed host) (hchanges : Changes host obj post) :
    Respects host obj post := by
  induction hchanges with
  | refl => exact .refl obj
  | tail hfirst hch ih => exact ih.trans (hch.respects (Changes.wellFormed h hfirst))

end PropertyObject

end TachyonEngine.Vm

import TachyonEngine.Vm.PropertyWrite
import TachyonEngine.Vm.RefusedWrite

/-!
# When assignment and `Reflect.set` agree

A complete descriptor shows more of an object than the walk of an assignment sees: the index
properties of a String wrapper and the `callee` of a strict arguments object (`isHidden`). On the
other side an assignment writes over the mark of a deleted field of the receiver, where
`Reflect.set` goes on to the prototypes. And a descriptor may have to make a string or the prototype
object of a function. `Disagreement` lists what follows; without it the two routines agree.
-/

namespace TachyonEngine.Vm

open Lib Lib.Attempt WriteChain Option

namespace ChainObject

variable {host : PropertyHost} {ctx : WriteContext} {obj post : ChainObject}
  {key : PropertyKey} {val : Value} {res : Except WriteError (Option PropertyDescriptor)}

/-! ## What a descriptor decides -/

/-- An own property that an assignment sees on the receiver only. -/
def isHidden (host : PropertyHost) (obj : ChainObject) (key : PropertyKey) : Bool :=
  obj.isStringVirtual host key || obj.isStrictArgumentsRestrictedProperty host key

/-- What the complete descriptor of a key decides. -/
def described (host : PropertyHost) (key : PropertyKey) (obj : ChainObject) : Option Verdict :=
  if obj.isHidden host key then some .reject else assignmentRound host key false obj

/-- The object has no property of the key. -/
def lacks (host : PropertyHost) (key : PropertyKey) (obj : ChainObject) : Bool :=
  (obj.described host key).isNone

/-- The descriptor has a new string for its value. -/
def needsString (host : PropertyHost) (obj : ChainObject) (key : PropertyKey) : Bool :=
  match obj with
  | .stringWrapper units _ =>
    key ≠ host.lengthKey && (host.arrayPropertyIndex key).any fun index => index < units.length
  | .function virtuals _ part =>
    (part.own.lookup key).isNone && key ≠ host.lengthKey && key = .atom host.atoms.nameAtom &&
      !virtuals.isBound
  | _ => false

/-- The descriptor has to make the prototype of the function. -/
def isUnmadePrototype (host : PropertyHost) (obj : ChainObject) (key : PropertyKey) : Bool :=
  match obj with
  | .function _ none part =>
    (part.own.lookup key).isNone && !obj.isFunctionMetadataProperty host key &&
      obj.isFunctionPrototypeProperty host key
  | _ => false

/-- What a round of `Reflect.set` comes to: a string or a prototype that the descriptor has to make,
and the verdict of the descriptor. -/
def roundOutcome (ctx : WriteContext) (obj : ChainObject) (key : PropertyKey) :
    Except WriteError (Option Verdict) × ChainObject :=
  if obj.needsString ctx.host key && !ctx.stringGranted then
    (.error .stringAllocation, obj)
  else if obj.isUnmadePrototype ctx.host key then
    match ctx.newPrototype with
    | some prototype =>
      (.ok (obj.described ctx.host key), obj.setFunctionPrototype prototype)
    | none => (.error .prototypeAllocation, obj)
  else (.ok (obj.described ctx.host key), obj)

theorem isUnmadePrototype_function (virtuals : FunctionVirtuals) (prototype : Option Value)
    (part : ListedPart) : isUnmadePrototype host (.function virtuals prototype part) key =
      (prototype.isNone && (part.own.lookup key).isNone &&
        !(decide (key = host.lengthKey) || decide (key = .atom host.atoms.nameAtom)) &&
        (virtuals.hasPrototype && decide (key = .atom host.atoms.prototypeAtom))) := by
  cases prototype <;> rfl

theorem denseArrayValue_part (part : ListedPart) (key : PropertyKey) :
    part.own.denseArrayValue host key = none :=
  PropertyObject.denseArrayValue_of_listed rfl key

/-- What the descriptor of a stored property decides. -/
theorem verdict_of_stored {own : PropertyObject} (hdense : own.denseArrayValue host key = none)
    {prop : OwnProperty} (hf : own.lookup key = some prop) :
    (match PropertyObject.completeOwnPropertyDescriptor host own key with
      | none => .ok none
      | some desc => (descriptorVerdict desc).map some) =
      (Except.ok (match prop.stored with
        | some (.data _) => if prop.attributes.writable then some .write else some .reject
        | some (.accessor _ setter) =>
          if setter = .undefined then some .reject else some (.setter setter)
        | none => none) : Except WriteError (Option Verdict)) := by
  simp only [PropertyObject.completeOwnPropertyDescriptor, hdense, hf]
  cases prop.stored with
  | none => rfl
  | some stored =>
    cases stored with
    | data val =>
      cases prop.attributes.writable with
      | true | false => rfl
    | accessor getter setter =>
      simp only [map_some, descriptorVerdict]
      split
      · rfl
      · rfl

section

variable (hnamespace : obj.isModuleNamespace = false)

include hnamespace

section

variable (hdense : obj.own.denseArrayValue ctx.host key = none)

include hdense

section

variable (hstring : obj.stringDescriptor ctx key = none)

include hstring

section

variable (hstrict : obj.isStrictArgumentsRestrictedProperty ctx.host key = false)

include hstrict

/-- A stored property decides the same in both routines, unless a virtual one is in front of it. -/
theorem reflectRound_stored {prop : OwnProperty} (hf : obj.own.lookup key = some prop) :
    reflectRound ctx key obj = (.ok (assignmentRound ctx.host key false obj), obj) := by
  have hverdict := verdict_of_stored hdense hf
  have hassign : assignmentRound ctx.host key false obj = (match prop.stored with
        | some (.data _) => if prop.attributes.writable then some .write else some .reject
        | some (.accessor _ setter) =>
          if setter = .undefined then some .reject else some (.setter setter)
        | none => none) := by
    simp only [assignmentRound, hnamespace, hdense, hf] <;> rfl
  simp only [reflectRound, hnamespace, completeOwnPropertyDescriptor, hdense, hstring, hstrict, hf]
  rw [hassign, ← hverdict]
  cases PropertyObject.completeOwnPropertyDescriptor ctx.host obj.own key with
  | none | some desc => rfl

/-- Without a stored property the virtual properties of a function decide. -/
theorem reflectRound_missing (hf : obj.own.lookup key = none) :
    reflectRound ctx key obj =
      match obj.functionDescriptor ctx key with
      | (.error err, obj) => (.error err, obj)
      | (.ok none, obj) => (.ok none, obj)
      | (.ok (some desc), obj) => ((descriptorVerdict desc).map some, obj) := by
  simp only [reflectRound, hnamespace, completeOwnPropertyDescriptor, hdense, hstring, hstrict,
    hf] <;> rfl

/-- An object without virtual properties. -/
theorem reflectRound_listed (hfn : obj.functionDescriptor ctx key = (.ok none, obj))
    (hmetadata : obj.isFunctionMetadataProperty ctx.host key = false)
    (hproto : obj.isFunctionPrototypeProperty ctx.host key = false) :
    reflectRound ctx key obj = (.ok (assignmentRound ctx.host key false obj), obj) := by
  cases hf : obj.own.lookup key with
  | some prop => exact reflectRound_stored hnamespace hdense hstring hstrict hf
  | none =>
    rw [reflectRound_missing hnamespace hdense hstring hstrict hf, hfn]
    simp only [assignmentRound, hnamespace, hdense, hf, hmetadata, hproto,
      isSome_none, Bool.false_eq_true, if_false]

end

end

end

end

theorem reflectRound_plain (own : PropertyObject) : reflectRound ctx key (.plain own) =
      (.ok (assignmentRound ctx.host key false (.plain own)), .plain own) := by
  cases hdense : own.denseArrayValue ctx.host key with
  | none => exact reflectRound_listed rfl hdense rfl rfl rfl rfl rfl
  | some val =>
    simp only [reflectRound, assignmentRound, completeOwnPropertyDescriptor,
      ChainObject.own, hdense]
    rfl

theorem reflectRound_stringWrapper (units : List Value) (part : ListedPart) :
    reflectRound ctx key (.stringWrapper units part) =
      if needsString ctx.host (.stringWrapper units part) key && !ctx.stringGranted then
        (.error .stringAllocation, .stringWrapper units part)
      else (.ok (described ctx.host key (.stringWrapper units part)),
        .stringWrapper units part) := by
  have hdense : part.own.denseArrayValue ctx.host key = none := denseArrayValue_part part key
  by_cases hlen : key = ctx.host.lengthKey
  · have hneeds : needsString ctx.host (.stringWrapper units part) key = false := by
      simp only [needsString, hlen, ne_eq, not_true_eq_false, decide_false, Bool.false_and]
    have hvirtual : isStringVirtual ctx.host (.stringWrapper units part) key = true := by
      simp only [isStringVirtual, hlen, decide_true, Bool.true_or]
    simp only [reflectRound, completeOwnPropertyDescriptor, ChainObject.own, hdense,
      stringDescriptor, if_pos hlen, hneeds, described, isHidden, hvirtual]
    rfl
  · cases hi : (ctx.host.arrayPropertyIndex key).bind fun idx => units[idx]? with
    | none =>
      have hany : ((ctx.host.arrayPropertyIndex key).any fun idx =>
          decide (idx < units.length)) = false := by
        cases hkey : ctx.host.arrayPropertyIndex key with
        | none => rfl
        | some idx =>
          rw [hkey, bind_some, List.getElem?_eq_none_iff] at hi
          simp only [any_some, decide_eq_false_iff_not]
          omega
      have hstring : stringDescriptor ctx (.stringWrapper units part) key = none := by
        simp only [stringDescriptor, if_neg hlen, hi, map_none]
      rw [reflectRound_listed rfl hdense hstring rfl rfl rfl rfl]
      simp only [needsString, described, isHidden, isStringVirtual, hany, hlen,
        isStrictArgumentsRestrictedProperty]
      simp
    | some unit =>
      have hany : ((ctx.host.arrayPropertyIndex key).any fun idx =>
          decide (idx < units.length)) = true := by
        cases hkey : ctx.host.arrayPropertyIndex key with
        | none =>
          rw [hkey] at hi
          cases hi
        | some idx =>
          rw [hkey, bind_some, List.getElem?_eq_some_iff] at hi
          obtain ⟨hlt, -⟩ := hi
          simp only [any_some, decide_eq_true_eq]
          exact hlt
      have hneeds : needsString ctx.host (.stringWrapper units part) key = true := by
        simp only [needsString, hany, hlen, ne_eq, not_false_eq_true, decide_true, Bool.and_self]
      have hvirtual : isStringVirtual ctx.host (.stringWrapper units part) key = true := by
        simp only [isStringVirtual, hany, Bool.or_true]
      simp only [reflectRound, completeOwnPropertyDescriptor, ChainObject.own,
        hdense, stringDescriptor, if_neg hlen, hi, hneeds, described, isHidden, hvirtual, map_some]
      cases ctx.stringGranted with
      | true | false => rfl

theorem reflectRound_strictArguments (part : ListedPart) :
    reflectRound ctx key (.strictArguments part) =
      (.ok (described ctx.host key (.strictArguments part)), .strictArguments part) := by
  have hdense : part.own.denseArrayValue ctx.host key = none := denseArrayValue_part part key
  cases hstrict : isStrictArgumentsRestrictedProperty ctx.host (.strictArguments part) key with
  | false =>
    rw [reflectRound_listed rfl hdense rfl hstrict rfl rfl rfl]
    simp only [described, isHidden, hstrict, isStringVirtual, Bool.or_self, Bool.false_eq_true,
      if_false]
  | true =>
    simp only [reflectRound, completeOwnPropertyDescriptor, ChainObject.own,
      hdense, stringDescriptor, hstrict, described, isHidden, if_true]
    rfl

variable {virtuals : FunctionVirtuals} {prototype : Option Value} {part : ListedPart}

/-- The virtual properties of a function decide as an assignment does. -/
theorem described_function_missing (hf : part.own.lookup key = none) :
    described host key (.function virtuals prototype part) =
      if key = host.lengthKey ∨ key = .atom host.atoms.nameAtom then some .reject
      else if virtuals.hasPrototype = true ∧ key = .atom host.atoms.prototypeAtom then
        if virtuals.isPrototypeReadOnly then some .reject else some .write else none := by
  simp only [described, assignmentRound, ChainObject.own, denseArrayValue_part, hf,
    isFunctionMetadataProperty, isFunctionPrototypeProperty, Bool.or_eq_true, Bool.and_eq_true,
    decide_eq_true_eq]
  rfl

theorem reflectRound_function_missing (hf : part.own.lookup key = none) :
    reflectRound ctx key (.function virtuals prototype part) =
      roundOutcome ctx (.function virtuals prototype part) key := by
  have hround : reflectRound ctx key (.function virtuals prototype part) =
      match functionDescriptor ctx (.function virtuals prototype part) key with
      | (.error err, obj) => (.error err, obj)
      | (.ok none, obj) => (.ok none, obj)
      | (.ok (some desc), obj) => ((descriptorVerdict desc).map some, obj) :=
    reflectRound_missing rfl (denseArrayValue_part part key) rfl rfl hf
  have hneeds : needsString ctx.host (.function virtuals prototype part) key =
      (decide (key ≠ ctx.host.lengthKey) && decide (key = .atom ctx.host.atoms.nameAtom) &&
        !virtuals.isBound) := by
    simp only [needsString, hf, isNone_none, Bool.true_and]
  rw [hround, roundOutcome, hneeds, isUnmadePrototype_function, described_function_missing hf, hf]
  by_cases hlen : key = ctx.host.lengthKey
  · simp only [functionDescriptor, hlen, ne_eq, decide_true,
      Bool.true_or, Bool.not_true, Bool.and_false]
    rfl
  · have hne : decide (key ≠ ctx.host.lengthKey) = true := decide_eq_true hlen
    simp only [functionDescriptor, hne, hlen, decide_false, false_or, Bool.false_or, Bool.true_and]
    by_cases hname : key = .atom ctx.host.atoms.nameAtom
    · simp only [if_pos hname, decide_eq_true hname, Bool.not_true, Bool.and_false]
      cases virtuals.isBound with
      | true => rfl
      | false =>
        cases ctx.stringGranted with
        | true | false => rfl
    · simp only [if_neg hname, decide_eq_false hname, Bool.false_and, Bool.false_eq_true, if_false,
        Bool.and_eq_true, decide_eq_true_eq]
      by_cases hproto : virtuals.hasPrototype = true ∧ key = .atom ctx.host.atoms.prototypeAtom
      · simp only [hproto]
        cases prototype with
        | some val =>
          cases virtuals.isPrototypeReadOnly with
          | true | false => rfl
        | none =>
          cases ctx.newPrototype with
          | none => rfl
          | some made =>
            cases virtuals.isPrototypeReadOnly with
            | true | false => rfl
      · rw [if_neg hproto, if_neg hproto, if_neg fun h => hproto h.2]

theorem reflectRound_function (virtuals : FunctionVirtuals) (prototype : Option Value)
    (part : ListedPart) : reflectRound ctx key (.function virtuals prototype part) =
      roundOutcome ctx (.function virtuals prototype part) key := by
  cases hf : part.own.lookup key with
  | some prop =>
    have hround : reflectRound ctx key (.function virtuals prototype part) =
        (.ok (assignmentRound ctx.host key false (.function virtuals prototype part)),
          .function virtuals prototype part) :=
      reflectRound_stored rfl (denseArrayValue_part part key) rfl rfl hf
    rw [hround, roundOutcome, isUnmadePrototype_function]
    simp only [needsString, hf, isNone_some, Bool.and_false, Bool.false_and, Bool.false_eq_true,
      if_false, described, isHidden, isStringVirtual, isStrictArgumentsRestrictedProperty,
        Bool.or_self]
  | none => exact reflectRound_function_missing hf

theorem reflectRound_eq (ctx : WriteContext) (obj : ChainObject) (key : PropertyKey) :
    reflectRound ctx key obj = obj.roundOutcome ctx key := by
  cases obj with
  | plain own => exact reflectRound_plain own
  | stringWrapper units part => exact reflectRound_stringWrapper units part
  | function virtuals prototype part => exact reflectRound_function virtuals prototype part
  | strictArguments part => exact reflectRound_strictArguments part
  | moduleNamespace part => rfl

/-- An object that decides nothing in an assignment has no property, or only the mark of a deleted
one. -/
theorem assignmentRound_eq_none (h : assignmentRound host key false obj = none) :
    obj.isModuleNamespace = false ∧ obj.own.denseArrayValue host key = none ∧
      ((obj.own.lookup key = none ∧ obj.isFunctionMetadataProperty host key = false ∧
          obj.isFunctionPrototypeProperty host key = false) ∨
        ∃ prop, obj.own.lookup key = some prop ∧ prop.stored = none) := by
  rw [assignmentRound] at h
  split at h
  · cases h
  next hnamespace =>
    split at h
    · cases h
    next hdense =>
      rw [Bool.not_eq_true] at hnamespace hdense
      refine ⟨hnamespace, isSome_eq_false_iff.mp hdense |> isNone_iff_eq_none.mp, ?_⟩
      cases hf : obj.own.lookup key with
      | some prop =>
        rw [hf] at h
        refine .inr ⟨prop, rfl, ?_⟩
        cases hsto : prop.stored with
        | none => rfl
        | some stored =>
          cases stored <;> simp only [hsto] at h <;> split at h <;> cases h
      | none =>
        rw [hf] at h
        dsimp only at h
        split at h
        · cases h
        next hmetadata =>
          split at h
          · split at h
            · cases h
            · cases h
          next hproto =>
            exact .inl ⟨rfl, Bool.not_eq_true _ ▸ hmetadata, Bool.not_eq_true _ ▸ hproto⟩

theorem visible_of_undescribed (h : obj.described host key = none) :
    obj.isHidden host key = false ∧ assignmentRound host key false obj = none := by
  rw [described] at h
  split_ifs at h with hhidden
  exact ⟨Bool.not_eq_true _ ▸ hhidden, h⟩

/-- An object without the property makes nothing. -/
theorem plain_of_undescribed (h : obj.described host key = none) :
    obj.isModuleNamespace = false ∧ obj.isHidden host key = false ∧
      obj.needsString host key = false ∧ obj.isUnmadePrototype host key = false := by
  obtain ⟨hhidden, hround⟩ := visible_of_undescribed h
  obtain ⟨hnamespace, -, hmis⟩ := assignmentRound_eq_none hround
  refine ⟨hnamespace, hhidden, ?_⟩
  cases obj with
  | stringWrapper units part =>
    simp only [isHidden, isStringVirtual, Bool.or_eq_false_iff] at hhidden
    refine ⟨?_, rfl⟩
    simp only [needsString, hhidden.1.2, Bool.and_false]
  | function virtuals prototype part =>
    rw [isUnmadePrototype_function]
    rcases hmis with ⟨-, hmetadata, hproto⟩ | ⟨prop, hf, -⟩
    · simp only [isFunctionMetadataProperty, Bool.or_eq_false_iff] at hmetadata
      simp only [isFunctionPrototypeProperty] at hproto
      simp only [needsString, hmetadata.2, hproto, Bool.and_false, Bool.false_and, and_self]
    · have hf : part.own.lookup key = some prop := hf
      simp only [needsString, hf, isNone_some, Bool.and_false, Bool.false_and, and_self]
  | plain own | strictArguments part | moduleNamespace part => exact ⟨rfl, rfl⟩

theorem reflectRound_undescribed (h : obj.described ctx.host key = none) :
    reflectRound ctx key obj = (.ok none, obj) := by
  obtain ⟨-, -, hneeds, hunmade⟩ := plain_of_undescribed h
  rw [reflectRound_eq, roundOutcome, hneeds, hunmade, h]
  rfl

/-! ## Writing to the receiver -/

/-- A prototype that was made is found again. -/
theorem functionDescriptor_again (h : obj.functionDescriptor ctx key = (res, post)) :
    post = obj ∨ ∃ virtuals prototype part made, obj = .function virtuals prototype part ∧
      post = .function virtuals (some made) part ∧
      post.functionDescriptor ctx key = (res, post) := by
  cases obj with
  | function virtuals prototype part =>
    simp only [functionDescriptor] at h
    split at h
    · exact .inl (Prod.mk.inj h).2.symm
    next hlen =>
      split at h
      · split at h
        · exact .inl (Prod.mk.inj h).2.symm
        · exact .inl (Prod.mk.inj h).2.symm
      next hname =>
        split_ifs at h with hproto
        · split at h
          next made hmade =>
            obtain ⟨rfl, rfl⟩ := Prod.mk.inj h
            refine .inr ⟨virtuals, prototype, part, made, rfl, rfl, ?_⟩
            simp only [functionDescriptor, if_neg hlen, if_neg hname, if_pos hproto, some_or]
          · exact .inl (Prod.mk.inj h).2.symm
        · exact .inl (Prod.mk.inj h).2.symm
  | plain own | stringWrapper units part | strictArguments part | moduleNamespace part =>
    exact .inl (Prod.mk.inj h).2.symm

theorem complete_again (hround : obj.completeOwnPropertyDescriptor ctx key = (res, post)) :
    post.completeOwnPropertyDescriptor ctx key = (res, post) := by
  have hs : post = obj → post.completeOwnPropertyDescriptor ctx key = (res, post) := by
    rintro rfl
    exact hround
  rw [completeOwnPropertyDescriptor] at hround
  split at hround
  · exact hs (Prod.mk.inj hround).2.symm
  · split at hround
    · exact hs (Prod.mk.inj hround).2.symm
    · split at hround
      · exact hs (Prod.mk.inj hround).2.symm
      · split at hround
        next hf =>
          rcases functionDescriptor_again hround with
            hobject | ⟨virtuals, prototype, part, made, rfl, rfl, hagain⟩
          · exact hs hobject
          · -- the stored properties are the same, and a function has no other virtual property
            have hdense : part.own.denseArrayValue ctx.host key = none :=
              denseArrayValue_part part key
            have hmis : part.own.lookup key = none := hf
            simp only [completeOwnPropertyDescriptor, ChainObject.own, hdense, hmis]
            exact hagain
        · exact hs (Prod.mk.inj hround).2.symm

theorem writes_of_verdict {desc : PropertyDescriptor} (h : descriptorVerdict desc = .ok .write) :
    ∃ data, desc = .data data ∧ data.writable.getD false = true := by
  cases desc with
  | generic desc => cases h
  | data data =>
    refine ⟨data, rfl, ?_⟩
    rw [← Bool.not_eq_false]
    intro hw
    rw [descriptorVerdict, hw] at h
    cases h
  | accessor desc =>
    rw [descriptorVerdict] at h
    split at h
    · split at h
      · cases h
      · cases h
    · cases h

/-- The rules of `Reflect.set` let a write through that the receiver does not reject. -/
theorem writeReflectReceiver_eq {verdict : Option Verdict}
    (hround : reflectRound ctx key obj = (.ok verdict, post))
    (hverdict : verdict = none ∨ verdict = some .write) :
    post.writeReflectReceiver ctx key val = post.writeDataPropertyBoolean ctx key val := by
  rw [reflectRound] at hround
  split at hround
  · cases hround
    rcases hverdict with hverdict | hverdict
    · cases hverdict
    · cases hverdict
  · split at hround
    · cases hround
    next cur hcomplete =>
      cases hround
      rw [writeReflectReceiver, complete_again hcomplete]
    next desc cur hcomplete =>
      obtain ⟨hres, rfl⟩ := Prod.mk.inj hround
      have hwrite : descriptorVerdict desc = .ok .write := by
        cases hdesc : descriptorVerdict desc with
        | error err =>
          rw [hdesc] at hres
          cases hres
        | ok decided =>
          rw [hdesc] at hres
          cases hres
          rcases hverdict with hverdict | hverdict
          · cases hverdict
          · cases hverdict
            rfl
      obtain ⟨data, rfl, hw⟩ := writes_of_verdict hwrite
      rw [writeReflectReceiver, complete_again hcomplete]
      simp only [hw, Bool.not_true, Bool.false_eq_true, if_false]

/-! ## A write that the receiver refuses -/

/-- The receiver answers a write of a property that it does not have with `false`. -/
def RefusesWrite (host : PropertyHost) (obj : ChainObject) (key : PropertyKey) : Prop :=
  if obj.isFunctionPrototypeProperty host key then obj.hasReadOnlyPrototype = true
  else obj.own.ClosedTo host key

theorem withOwn_own (obj : ChainObject) : obj.withOwn obj.own = obj := by
  cases obj with
  | plain own => rfl
  | stringWrapper units part => rfl
  | function virtuals prototype part => rfl
  | strictArguments part => rfl
  | moduleNamespace part => rfl

/-- No stored property, or only the mark of a deleted one. -/
theorem missing_of_undescribed (h : obj.described host key = none) :
    obj.own.denseArrayValue host key = none ∧ (obj.own.lookup key).bind OwnProperty.stored = none ∧
      (obj.isFunctionMetadataProperty host key && (obj.own.lookup key).isNone) = false := by
  obtain ⟨-, hdense, hmis⟩ := assignmentRound_eq_none (visible_of_undescribed h).2
  refine ⟨hdense, ?_⟩
  rcases hmis with ⟨hf, hmetadata, -⟩ | ⟨prop, hf, hsto⟩
  · rw [hf, hmetadata]
    exact ⟨rfl, rfl⟩
  · rw [hf, isNone_some, Bool.and_false]
    exact ⟨hsto, rfl⟩

/-- A write to the receiver calls no setter, and has the errors of a definition only. -/
theorem write_results (ctx : WriteContext) (obj : ChainObject) (key : PropertyKey) (val : Value) :
    (∀ setter, (obj.writeDataPropertyBoolean ctx key val).1 ≠ .ok (.setter setter)) ∧
      ∀ err, (obj.writeDataPropertyBoolean ctx key val).1 = .error err →
        ∃ cause, err = .descriptor cause := by
  rw [writeDataPropertyBoolean]
  split
  · exact ⟨by rintro _ ⟨⟩, by rintro _ ⟨⟩⟩
  · split
    · exact ⟨by rintro _ ⟨⟩, by rintro _ ⟨⟩⟩
    · exact ⟨by rintro _ ⟨⟩, by rintro _ ⟨⟩⟩
    · exact ⟨by rintro _ ⟨⟩, by rintro _ ⟨⟩⟩
    · exact ⟨by rintro _ ⟨⟩, fun _ h => ⟨_, (Except.error.inj h).symm⟩⟩

theorem isFunctionPrototypeProperty_set (obj : ChainObject) (made : Value) :
    (obj.setFunctionPrototype made).isFunctionPrototypeProperty host key =
      obj.isFunctionPrototypeProperty host key := by
  cases obj with
  | _ => rfl

theorem hasReadOnlyPrototype_set (obj : ChainObject) (made : Value) :
    (obj.setFunctionPrototype made).hasReadOnlyPrototype = obj.hasReadOnlyPrototype := by
  cases obj with
  | _ => rfl

theorem setFunctionPrototype_twice (obj : ChainObject) (made val : Value) :
    (obj.setFunctionPrototype made).setFunctionPrototype val = obj.setFunctionPrototype val := by
  cases obj with
  | _ => rfl

/-- The virtual prototype of a function is written beside the stored properties. -/
theorem write_prototype (hproto : obj.isFunctionPrototypeProperty ctx.host key = true) :
    obj.writeDataPropertyBoolean ctx key val =
      if obj.hasReadOnlyPrototype then (.ok (.complete false), obj)
      else (.ok (.complete true), obj.setFunctionPrototype val) := by
  have harray : obj.isArrayLengthObjectWrite ctx key val = false := by
    cases obj with
    | function virtuals prototype part => simp only [isArrayLengthObjectWrite, ChainObject.own,
        ListedPart.own, PropertyObject.isArray, Bool.and_false]
    | plain own | stringWrapper units part | strictArguments part | moduleNamespace part =>
      cases hproto
  rw [writeDataPropertyBoolean, harray, setOwnDataProperty, if_pos hproto]
  cases obj.hasReadOnlyPrototype with
  | true | false => rfl

theorem refusesWrite_iff (h : obj.described ctx.host key = none) :
    obj.writeDataPropertyBoolean ctx key val = (.ok (.complete false), obj) ↔
      obj.RefusesWrite ctx.host key := by
  obtain ⟨hdense, hmis, hmetadata⟩ := missing_of_undescribed h
  by_cases hproto : obj.isFunctionPrototypeProperty ctx.host key = true
  · rw [RefusesWrite, if_pos hproto, write_prototype hproto]
    cases obj.hasReadOnlyPrototype with
    | true => exact iff_of_true rfl rfl
    | false => exact iff_of_false (fun h => by cases h) Bool.false_ne_true
  · rw [RefusesWrite, writeDataPropertyBoolean]
    split_ifs with harray
    · refine iff_of_false (fun h => by cases h) ?_
      rintro ⟨-, hlen, -⟩
      simp only [isArrayLengthObjectWrite, Bool.and_eq_true, decide_eq_true_eq] at harray
      exact hlen ⟨harray.2, harray.1.2⟩
    · obtain ⟨hcl, hopen⟩ : (obj.own.ClosedTo ctx.host key →
          Ends (PropertyObject.setOwnDataProperty ctx.host ctx.memory key val) (fun _ _ => False)
            (fun err post => err = .nonExtensibleObject ∧ post = obj.own) obj.own) ∧
          (¬ obj.own.ClosedTo ctx.host key →
            Ends (PropertyObject.setOwnDataProperty ctx.host ctx.memory key val)
              (fun _ _ => True) (fun err _ => err.Severe) obj.own) :=
        PropertyObject.ends_set_missing hdense hmis
      rw [setOwnDataProperty, if_neg hproto, hmetadata, if_neg Bool.false_ne_true]
      by_cases h : obj.own.ClosedTo ctx.host key
      · refine iff_of_true ?_ h
        have hends := hcl h
        rw [Ends] at hends
        split at hends
        · exact hends.elim
        next hout =>
          obtain ⟨rfl, rfl⟩ := hends
          rw [hout]
          dsimp only
          rw [withOwn_own]
      · refine iff_of_false ?_ h
        have hends := hopen h
        rw [Ends] at hends
        split at hends
        next hout =>
          rw [hout]
          exact fun h => by cases h
        next err own hout =>
          rw [hout]
          split
          · exact fun h => by cases h
          next herr =>
            exact absurd (Except.error.inj (Prod.mk.inj herr).1) hends.1
          next herr =>
            exact absurd (Except.error.inj (Prod.mk.inj herr).1) hends.2
          · exact fun h => by cases h

end ChainObject

/-! ## Where the two routines disagree -/

/-- Only the mark of a deleted field is stored. -/
def ChainObject.hasMark (obj : ChainObject) (key : PropertyKey) : Bool :=
  (obj.own.lookup key).any fun property => property.stored.isNone

namespace WriteChain

variable (ctx : WriteContext) (key : PropertyKey)

/-- The descriptor has a string that cannot be made. -/
def RefusedString (obj : ChainObject) : Prop :=
  obj.needsString ctx.host key = true ∧ ctx.stringGranted = false

/-- An assignment writes to the receiver, and `Reflect.set` has found the verdict above it. -/
def WritesAgainst (receiver : ChainObject) : Option Verdict → Prop
  | some .reject => ¬ receiver.RefusesWrite ctx.host key
  | some (.setter _) => True
  | some .write => False
  | none => True

/-- `Reflect.set` has answered `false`, and an assignment has found the verdict further up. -/
def PassesHidden (receiver : ChainObject) (root : Option Value) : Option Verdict → Prop
  | some .reject => False
  | some (.setter _) => True
  | some .write => ¬ receiver.RefusesWrite ctx.host key
  | none => root.isSome = true ∨ ¬ receiver.RefusesWrite ctx.host key

/-- The chains on which the two routines disagree. If the receiver has the property, the descriptor
needs memory or shows the prototype that it makes. Otherwise the first object above the receiver
that has it counts: an assignment stops at the receiver if a field was deleted there, and passes an
object whose property is hidden from it. -/
def Disagreement (chain : WriteChain) : Prop :=
  if (chain.receiver.described ctx.host key).isSome then
    RefusedString ctx key chain.receiver ∨ chain.receiver.isUnmadePrototype ctx.host key = true ∧
        (ctx.newPrototype = none ∨ chain.receiver.hasReadOnlyPrototype = true)
  else
    match chain.prototypes.dropWhile (ChainObject.lacks ctx.host key) with
    | [] => chain.receiver.hasMark key = true ∧ chain.root.isSome = true
    | holder :: above =>
      RefusedString ctx key holder ∨ holder.isUnmadePrototype ctx.host key = true ∨
        if chain.receiver.hasMark key then
          WritesAgainst ctx key chain.receiver (holder.described ctx.host key)
        else
          holder.isHidden ctx.host key = true ∧ PassesHidden ctx key chain.receiver chain.root
              ((holder :: above).findSome? (assignmentRound ctx.host key false))

/-! ## The receiver has the property -/

section Agreement

open ChainObject

variable {ctx key} {chain : WriteChain} {val : Value}

variable {write : ChainObject → Except WriteError PropertyWrite × ChainObject}

theorem conclude_congr {write' : ChainObject → Except WriteError PropertyWrite × ChainObject}
    {verdict : Option Verdict}
    (h : verdict = none ∨ verdict = some .write → write chain.receiver = write' chain.receiver) :
    chain.conclude write verdict = chain.conclude write' verdict := by
  cases verdict with
  | none =>
    simp only [conclude]
    rw [h (.inl rfl)]
  | some verdict =>
    cases verdict with
    | reject | setter setter => rfl
    | write =>
      simp only [conclude]
      rw [h (.inr rfl)]

variable {verdict : Verdict}

variable {obj : ChainObject}

theorem assignmentRound_receiver (h : assignmentRound ctx.host key false obj = some verdict) :
    assignmentRound ctx.host key true obj = some verdict := by
  rw [assignmentRound] at h ⊢
  by_cases hnamespace : obj.isModuleNamespace = true
  · rw [if_pos hnamespace] at h ⊢
    exact h
  · rw [if_neg hnamespace] at h ⊢
    by_cases hdense : (obj.own.denseArrayValue ctx.host key).isSome = true
    · rw [if_pos hdense] at h ⊢
      exact h
    · rw [if_neg hdense] at h ⊢
      cases hf : obj.own.lookup key with
      | none =>
        rw [hf] at h
        exact h
      | some prop =>
        rw [hf] at h
        dsimp only at h ⊢
        cases hsto : prop.stored with
        | none =>
          rw [hsto] at h
          cases h
        | some stored =>
          rw [hsto] at h
          cases stored with
          | data val | accessor getter setter => exact h

theorem conclude_root {root : Value} (hroot : chain.root = some root) :
    chain.conclude write none = (.error (.notObject root), chain) := by
  simp only [conclude, hroot]

theorem conclude_top (hroot : chain.root = none) :
    chain.conclude write none = chain.conclude write (some .write) := by
  simp only [conclude, hroot]

theorem conclude_write :
    (∀ setter post, chain.conclude (·.writeDataPropertyBoolean ctx key val) (some .write) ≠
      (.ok (.setter setter), post)) ∧
      ∀ err post, chain.conclude (·.writeDataPropertyBoolean ctx key val) (some .write) =
        (.error err, post) → ∃ cause, err = .descriptor cause := by
  obtain ⟨hsetter, herr⟩ := write_results ctx chain.receiver key val
  exact ⟨fun setter _ h => hsetter setter (Prod.mk.inj h).1,
    fun err _ h => herr err (Prod.mk.inj h).1⟩

variable {err : WriteError} {post : WriteChain}

/-- The errors that an assignment can end in. -/
theorem conclude_error {verdict : Option Verdict} (h : chain.conclude (·.writeDataPropertyBoolean
    ctx key val) verdict = (.error err, post)) :
    (∃ cause, err = .descriptor cause) ∨ ∃ root, err = .notObject root := by
  cases verdict with
  | none =>
    cases hroot : chain.root with
    | some root =>
      rw [conclude_root hroot] at h
      cases h
      exact .inr ⟨root, rfl⟩
    | none =>
      rw [conclude_top hroot] at h
      exact .inl (conclude_write.2 err post h)
  | some verdict =>
    cases verdict with
    | reject | setter setter => cases h
    | write => exact .inl (conclude_write.2 err post h)

/-- An assignment asks for no string and no prototype. -/
theorem conclude_ne_memory {verdict : Option Verdict} (herr : err = .stringAllocation ∨ err =
    .prototypeAllocation) :
    chain.conclude (·.writeDataPropertyBoolean ctx key val) verdict ≠ (.error err, post) := by
  intro h
  rcases conclude_error h with ⟨cause, rfl⟩ | ⟨root, rfl⟩
  · rcases herr with herr | herr <;> cases herr
  · rcases herr with herr | herr <;> cases herr

theorem reflectRound_cases (ctx : WriteContext) (key : PropertyKey) (obj : ChainObject) :
    (RefusedString ctx key obj ∧ reflectRound ctx key obj = (.error .stringAllocation, obj)) ∨
      ¬ RefusedString ctx key obj ∧ ((obj.isUnmadePrototype ctx.host key = true ∧
          ((ctx.newPrototype = none ∧
              reflectRound ctx key obj = (.error .prototypeAllocation, obj)) ∨
            ∃ made, ctx.newPrototype = some made ∧ reflectRound ctx key obj =
              (.ok (obj.described ctx.host key), obj.setFunctionPrototype made))) ∨
        ¬ obj.isUnmadePrototype ctx.host key = true ∧
          reflectRound ctx key obj = (.ok (obj.described ctx.host key), obj)) := by
  rw [reflectRound_eq, roundOutcome]
  by_cases hstring : RefusedString ctx key obj
  · rw [hstring.1, hstring.2]
    exact .inl ⟨hstring, rfl⟩
  · have htest : ¬ (obj.needsString ctx.host key && !ctx.stringGranted) = true := by
      rw [Bool.and_eq_true, Bool.not_eq_true']
      exact hstring
    rw [if_neg htest]
    refine .inr ⟨hstring, ?_⟩
    by_cases hunmade : obj.isUnmadePrototype ctx.host key = true
    · rw [if_pos hunmade]
      refine .inl ⟨hunmade, ?_⟩
      cases ctx.newPrototype with
      | none => exact .inl ⟨rfl, rfl⟩
      | some made => exact .inr ⟨made, rfl, rfl⟩
    · rw [if_neg hunmade]
      exact .inr ⟨hunmade, rfl⟩

/-- An assignment follows the descriptor of the receiver. -/
theorem assign_of_described (h : chain.receiver.described ctx.host key = some verdict) :
    chain.resolvePropertyWrite ctx key val =
      chain.conclude (·.writeDataPropertyBoolean ctx key val) (some verdict) := by
  rw [resolvePropertyWrite]
  rw [described] at h
  cases hstrict : chain.receiver.isStrictArgumentsRestrictedProperty ctx.host key with
  | true =>
    rw [isHidden, hstrict, Bool.or_true] at h
    cases h
    rfl
  | false =>
    cases hstring : chain.receiver.isStringVirtual ctx.host key with
    | true =>
      rw [isHidden, hstring, Bool.true_or] at h
      cases h
      rfl
    | false =>
      rw [isHidden, hstring, hstrict, Bool.or_self] at h
      rw [if_neg Bool.false_ne_true, if_neg Bool.false_ne_true, assignmentRound_receiver h,
        some_or]

theorem function_of_unmade (h : obj.isUnmadePrototype ctx.host key = true) :
    ∃ virtuals part, obj = .function virtuals none part ∧
      obj.isFunctionPrototypeProperty ctx.host key = true ∧
      obj.described ctx.host key = some (if obj.hasReadOnlyPrototype then .reject else .write) := by
  cases obj with
  | function virtuals prototype part =>
    cases prototype with
    | some val => cases h
    | none =>
      simp only [isUnmadePrototype, Bool.and_eq_true, Bool.not_eq_true',
        isNone_iff_eq_none] at h
      obtain ⟨⟨hf, hmetadata⟩, hproto⟩ := h
      refine ⟨virtuals, part, rfl, hproto, ?_⟩
      have hnot : ¬ (key = ctx.host.lengthKey ∨ key = .atom ctx.host.atoms.nameAtom) := by
        simp only [isFunctionMetadataProperty, Bool.or_eq_false_iff,
          decide_eq_false_iff_not] at hmetadata
        exact not_or.mpr hmetadata
      have hhas : virtuals.hasPrototype = true ∧ key = .atom ctx.host.atoms.prototypeAtom := by
        simpa only [isFunctionPrototypeProperty, Bool.and_eq_true, decide_eq_true_eq] using hproto
      rw [described_function_missing hf, if_neg hnot, if_pos hhas]
      cases hread : virtuals.isPrototypeReadOnly with
      | true => simp only [hasReadOnlyPrototype, hread, if_true]
      | false => simp only [hasReadOnlyPrototype, hread, Bool.false_eq_true, if_false]
  | plain own | stringWrapper units part | strictArguments part | moduleNamespace part => cases h

theorem agree_of_described (h : chain.receiver.described ctx.host key = some verdict) :
    chain.resolvePropertyWrite ctx key val = chain.resolveReflectPropertyWrite ctx key val ↔
      ¬ (RefusedString ctx key chain.receiver ∨
        chain.receiver.isUnmadePrototype ctx.host key = true ∧
          (ctx.newPrototype = none ∨ chain.receiver.hasReadOnlyPrototype = true)) := by
  rw [assign_of_described h, resolveReflectPropertyWrite]
  rcases reflectRound_cases ctx key chain.receiver with
    ⟨hstring, hround⟩ | ⟨hstring, ⟨hunmade, ⟨hmade, hround⟩ | ⟨made, hmade, hround⟩⟩ |
      ⟨hunmade, hround⟩⟩
  · rw [hround]
    exact iff_of_false (conclude_ne_memory (.inl rfl)) (not_not_intro (.inl hstring))
  · rw [hround]
    exact iff_of_false (conclude_ne_memory (.inr rfl)) (not_not_intro (.inr ⟨hunmade, .inl hmade⟩))
  · obtain ⟨virtuals, part, hfn, hproto, hdescribed⟩ := function_of_unmade hunmade
    have hverdict : verdict = if chain.receiver.hasReadOnlyPrototype then .reject else .write :=
      some.inj (h.symm.trans hdescribed)
    rw [h] at hround
    rw [hround]
    dsimp only
    cases hread : chain.receiver.hasReadOnlyPrototype with
    | true =>
      -- nothing is written, but the prototype is there afterwards
      refine iff_of_false ?_ (not_not_intro (.inr ⟨hunmade, .inr rfl⟩))
      rw [hread, if_pos rfl] at hverdict
      rw [hverdict]
      intro heq
      have hreceiver := congrArg (fun res => res.2.receiver) heq
      simp only [conclude, hfn] at hreceiver
      cases hreceiver
    | false =>
      rw [hread, if_neg Bool.false_ne_true] at hverdict
      rw [hverdict] at hround ⊢
      refine iff_of_true ?_ ?_
      · have hproto' : (chain.receiver.setFunctionPrototype made).isFunctionPrototypeProperty
            ctx.host key = true := by
          rw [isFunctionPrototypeProperty_set]
          exact hproto
        rw [conclude, conclude, writeReflectReceiver_eq hround (.inr rfl),
          write_prototype hproto, write_prototype hproto',
          hasReadOnlyPrototype_set, hread, if_neg Bool.false_ne_true,
          if_neg Bool.false_ne_true, setFunctionPrototype_twice]
      · rintro (hcase | ⟨-, hcase | hcase⟩)
        · exact hstring hcase
        · cases hmade.symm.trans hcase
        · cases hcase
  · rw [h] at hround
    rw [hround]
    refine iff_of_true (conclude_congr fun hcase => ?_) ?_
    · exact (writeReflectReceiver_eq hround hcase).symm
    · rintro (hcase | hcase)
      · exact hstring hcase
      · exact hunmade hcase.1

/-! ## The property is above the receiver -/

/-- The walk of `Reflect.set` ends at the first object that has the property. -/
theorem reflectWalk_eq (prototypes : List ChainObject) :
    reflectWalk ctx key prototypes =
      match prototypes.dropWhile (lacks ctx.host key) with
      | [] => (.ok none, prototypes)
      | holder :: above =>
        ((reflectRound ctx key holder).1, prototypes.takeWhile (lacks ctx.host key) ++
            (reflectRound ctx key holder).2 :: above) := by
  induction prototypes with
  | nil => rfl
  | cons obj rest ih =>
    cases hdescribed : obj.described ctx.host key with
    | none =>
      have htest : lacks ctx.host key obj = true := by
        rw [lacks, hdescribed, isNone_none]
      rw [reflectWalk, reflectRound_undescribed hdescribed,
        List.dropWhile_cons_of_pos htest, List.takeWhile_cons_of_pos htest]
      rw [ih]
      cases rest.dropWhile (lacks ctx.host key) with
      | nil | cons holder above => rfl
    | some verdict =>
      have htest : ¬ lacks ctx.host key obj = true := by
        rw [lacks, hdescribed]
        exact Bool.false_ne_true
      rw [reflectWalk, List.dropWhile_cons_of_neg htest, List.takeWhile_cons_of_neg htest]
      dsimp only
      -- a round at an object that has the property does not go on
      have hstop : ∀ post, reflectRound ctx key obj ≠ (.ok none, post) := by
        rintro post heq
        rcases reflectRound_cases ctx key obj with
          ⟨-, hround⟩ | ⟨-, ⟨-, ⟨-, hround⟩ | ⟨made, -, hround⟩⟩ | ⟨-, hround⟩⟩
        all_goals
          rw [hround] at heq
          simp only [hdescribed, Prod.mk.injEq, Except.ok.injEq, reduceCtorEq, false_and] at heq
      split
      next post heq =>
        exact absurd heq (hstop post)
      next post heq =>
        rw [heq]
        rfl

/-- The objects that lack the property decide nothing in an assignment. -/
theorem findSome?_dropWhile (prototypes : List ChainObject) :
    prototypes.findSome? (assignmentRound ctx.host key false) =
      (prototypes.dropWhile (lacks ctx.host key)).findSome?
        (assignmentRound ctx.host key false) := by
  induction prototypes with
  | nil => rfl
  | cons obj rest ih =>
    cases hdescribed : obj.described ctx.host key with
    | none =>
      have htest : lacks ctx.host key obj = true := by
        rw [lacks, hdescribed, isNone_none]
      obtain ⟨-, hhidden, -, -⟩ := plain_of_undescribed hdescribed
      rw [described, hhidden, if_neg Bool.false_ne_true] at hdescribed
      rw [List.dropWhile_cons_of_pos htest, ← ih, List.findSome?_cons, hdescribed]
    | some verdict =>
      have htest : ¬ lacks ctx.host key obj = true := by
        rw [lacks, hdescribed]
        exact Bool.false_ne_true
      rw [List.dropWhile_cons_of_neg htest]

section

variable (h : chain.receiver.described ctx.host key = none)

include h

/-- An assignment writes over a mark, and walks on without one. -/
theorem assign_of_undescribed :
    chain.resolvePropertyWrite ctx key val = chain.conclude (·.writeDataPropertyBoolean ctx key val)
        (if chain.receiver.hasMark key then some .write
          else chain.prototypes.findSome? (assignmentRound ctx.host key false)) := by
  obtain ⟨hnamespace, hhidden, -, -⟩ := plain_of_undescribed h
  rw [isHidden, Bool.or_eq_false_iff] at hhidden
  rw [resolvePropertyWrite, hhidden.1, hhidden.2]
  obtain ⟨hdense, hmis, -⟩ := missing_of_undescribed h
  rw [described, isHidden, hhidden.1, hhidden.2, Bool.or_self] at h
  cases hf : chain.receiver.own.lookup key with
  | none =>
    have hround : assignmentRound ctx.host key true chain.receiver = none := by
      simp only [assignmentRound, hf] at h ⊢
      exact h
    rw [hasMark, hf, hround]
    rfl
  | some prop =>
    rw [hf, bind_some] at hmis
    simp only [assignmentRound, hasMark, hnamespace, hdense, hf, hmis,
      isSome_none, Bool.false_eq_true, if_false, if_true, any_some,
      isNone_none, some_or]

omit h in
theorem conclude_prototypes {verdict : Option Verdict} :
    (chain.conclude write verdict).2.prototypes = chain.prototypes := by
  cases verdict with
  | none =>
    rw [conclude]
    split
    · rfl
    · rfl
  | some verdict =>
    cases verdict with
    | reject | setter setter | write => rfl

theorem conclude_write_refused : chain.conclude (·.writeDataPropertyBoolean ctx key val)
        (some .write) = (.ok (.complete false), chain) ↔
      chain.receiver.RefusesWrite ctx.host key := by
  have hrefuses : chain.receiver.writeDataPropertyBoolean ctx key val =
      (.ok (.complete false), chain.receiver) ↔ chain.receiver.RefusesWrite ctx.host key :=
    refusesWrite_iff h
  rw [← hrefuses, conclude]
  constructor
  · intro heq
    obtain ⟨hres, hchain⟩ := Prod.mk.inj heq
    exact Prod.ext hres (congrArg WriteChain.receiver hchain)
  · intro heq
    rw [heq]

theorem reflect_of_undescribed :
    chain.resolveReflectPropertyWrite ctx key val =
      match reflectWalk ctx key chain.prototypes with
      | (.error err, prototypes) => (.error err, ⟨chain.receiver, prototypes, chain.root⟩)
      | (.ok verdict, prototypes) =>
        conclude (·.writeDataPropertyBoolean ctx key val)
          ⟨chain.receiver, prototypes, chain.root⟩ verdict := by
  have hround := reflectRound_undescribed h
  rw [resolveReflectPropertyWrite, hround]
  rcases reflectWalk ctx key chain.prototypes with ⟨_ | verdict, prototypes⟩
  · rfl
  · refine conclude_congr ?_
    intro hcase
    exact writeReflectReceiver_eq hround (.inl rfl)

/-- Both routines end at the same verdict, or an assignment went past a hidden property. -/
theorem agree_without_mark {holder : ChainObject} {above : List ChainObject}
    (hholder : holder.described ctx.host key = some verdict) :
    chain.conclude (·.writeDataPropertyBoolean ctx key val)
        ((holder :: above).findSome? (assignmentRound ctx.host key false)) =
      chain.conclude (·.writeDataPropertyBoolean ctx key val) (some verdict) ↔
      ¬ (holder.isHidden ctx.host key = true ∧ PassesHidden ctx key chain.receiver chain.root
          ((holder :: above).findSome? (assignmentRound ctx.host key false))) := by
  cases hhidden : holder.isHidden ctx.host key with
  | false =>
    rw [described, hhidden, if_neg Bool.false_ne_true] at hholder
    rw [List.findSome?_cons, hholder]
    exact iff_of_true rfl (fun hcase => absurd hcase.1 Bool.false_ne_true)
  | true =>
    rw [described, hhidden] at hholder
    cases hholder
    have href : chain.conclude (·.writeDataPropertyBoolean ctx key val) (some .write) =
            (.ok (.complete false), chain) ↔ chain.receiver.RefusesWrite ctx.host key :=
      conclude_write_refused h
    cases (holder :: above).findSome? (assignmentRound ctx.host key false) with
    | none =>
      simp only [PassesHidden, true_and, not_or, not_not]
      cases hroot : chain.root with
      | some root =>
        refine iff_of_false ?_ (fun hcase => hcase.1 rfl)
        rw [conclude_root hroot]
        exact fun heq => (nomatch heq)
      | none =>
        rw [← href, conclude_top hroot]
        exact ⟨fun heq => ⟨Bool.false_ne_true, heq⟩, fun heq => heq.2⟩
    | some passed =>
      cases passed with
      | reject => exact iff_of_true rfl (fun hcase => hcase.2)
      | setter setter =>
        refine iff_of_false ?_ (not_not_intro ⟨rfl, trivial⟩)
        exact fun heq => (nomatch heq)
      | write =>
        simp only [PassesHidden, true_and, not_not]
        exact href

/-- An assignment writes over the mark, whatever is above. -/
theorem agree_with_mark (verdict : Verdict) :
    chain.conclude (·.writeDataPropertyBoolean ctx key val) (some .write) =
      chain.conclude (·.writeDataPropertyBoolean ctx key val) (some verdict) ↔
      ¬ WritesAgainst ctx key chain.receiver (some verdict) := by
  cases verdict with
  | reject =>
    rw [WritesAgainst, not_not]
    exact conclude_write_refused h
  | setter setter => exact iff_of_false (conclude_write.1 setter chain) (not_not_intro trivial)
  | write => exact iff_of_true rfl (fun hcase => hcase)

theorem agree_of_undescribed : chain.resolvePropertyWrite ctx key val =
        chain.resolveReflectPropertyWrite ctx key val ↔ ¬ Disagreement ctx key chain := by
  rw [Disagreement, h, isSome_none]
  rw [assign_of_undescribed h, reflect_of_undescribed h, reflectWalk_eq, findSome?_dropWhile]
  have hsplit := List.takeWhile_append_dropWhile (p := lacks ctx.host key) (l := chain.prototypes)
  have hhead := List.head?_dropWhile_not (lacks ctx.host key) chain.prototypes
  cases hdrop : chain.prototypes.dropWhile (lacks ctx.host key) with
  | nil =>
    cases hmark : chain.receiver.hasMark key with
    | false =>
      exact iff_of_true rfl (fun hcase => absurd hcase.1 Bool.false_ne_true)
    | true =>
      change chain.conclude _ (some .write) = chain.conclude _ none ↔ _
      cases hroot : chain.root with
      | none =>
        refine iff_of_true ?_ (fun hcase => absurd hcase.2 Bool.false_ne_true)
        exact (conclude_top hroot).symm
      | some root =>
        refine iff_of_false ?_ (not_not_intro ⟨rfl, rfl⟩)
        rw [conclude_root hroot]
        intro heq
        obtain ⟨cause, herr⟩ := conclude_write.2 (.notObject root) _ heq
        cases herr
  | cons holder above =>
    rw [hdrop] at hsplit hhead
    have hlacks : lacks ctx.host key holder = false := hhead
    obtain ⟨verdict, hholder⟩ : ∃ verdict, holder.described ctx.host key = some verdict := by
      rw [lacks, isNone_eq_false_iff] at hlacks
      exact isSome_iff_exists.mp hlacks
    dsimp only
    rcases reflectRound_cases ctx key holder with
      ⟨hstring, hround⟩ | ⟨hstring, ⟨hunmade, ⟨hmade, hround⟩ | ⟨made, hmade, hround⟩⟩ |
        ⟨hunmade, hround⟩⟩
    · rw [hround]
      exact iff_of_false (conclude_ne_memory (.inl rfl)) (not_not_intro (.inl hstring))
    · rw [hround]
      exact iff_of_false (conclude_ne_memory (.inr rfl)) (not_not_intro (.inr (.inl hunmade)))
    · -- the prototype is there afterwards
      refine iff_of_false ?_ (not_not_intro (.inr (.inl hunmade)))
      rw [hround]
      intro heq
      have hprototypes := congrArg (fun res => res.2.prototypes) heq
      rw [conclude_prototypes, conclude_prototypes] at hprototypes
      have hs := (List.cons.inj (List.append_cancel_left (hsplit.trans hprototypes))).1
      obtain ⟨virtuals, part, rfl, -, -⟩ := function_of_unmade hunmade
      cases hs
    · rw [hround, hholder]
      rw [hsplit]
      cases hmark : chain.receiver.hasMark key with
      | true =>
        rw [or_iff_right hstring, or_iff_right hunmade]
        exact agree_with_mark h verdict
      | false =>
        rw [or_iff_right hstring, or_iff_right hunmade]
        exact agree_without_mark h hholder

end

/-- The two routines end in the same way and leave the same objects, except on the chains listed. -/
theorem writes_agree (ctx : WriteContext) (key : PropertyKey) (val : Value) (chain : WriteChain) :
    chain.resolvePropertyWrite ctx key val =
        chain.resolveReflectPropertyWrite ctx key val ↔ ¬ Disagreement ctx key chain := by
  cases hdescribed : chain.receiver.described ctx.host key with
  | none => exact agree_of_undescribed hdescribed
  | some verdict =>
    rw [Disagreement, hdescribed, isSome_some]
    exact agree_of_described hdescribed

end Agreement

end WriteChain

/-! ## An example -/

/-- All memory is granted. -/
def WriteContext.sample : WriteContext :=
  { host := .sample
    memory := fun _ => true
    stringGranted := true
    newPrototype := some .undefined }

/-- An object whose prototype is a String wrapper. -/
def belowString : WriteChain :=
  { receiver := .plain ⟨.ordinary, [], true, fun _ => .undefined⟩
    prototypes := [.stringWrapper [.fromI32 65] ⟨[], true⟩]
    root := none }

/-- An assignment passes the index of the wrapper, which `Reflect.set` refuses to write. -/
theorem writes_disagree :
    ∃ chain : WriteChain, chain.resolvePropertyWrite .sample (.atom 3) (.fromI32 7) ≠
      chain.resolveReflectPropertyWrite .sample (.atom 3) (.fromI32 7) := by
  refine ⟨belowString, ?_⟩
  intro heq
  have hres := congrArg Prod.fst heq
  revert hres
  decide

end TachyonEngine.Vm

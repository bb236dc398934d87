import CacheAside.Proofs.Keys
import CacheAside.Proofs.Fetch
import CacheAside.Request

/-!
# What requests are made of

The parts that requests have in common, what can be wrong with them and with the answers of their
sources, and which store calls come before a source is asked.
-/

namespace CacheAside

/-- A computation with its result put into another form. -/
def Computation.inForm {σ υ ε α β : Type} (form : α → β) (compute : Computation σ υ ε α) :
    Computation σ υ ε β := fun w => ((compute w).1.map form, (compute w).2)

section
variable {σ υ ε α β : Type} {w w' : World σ υ} {form : α → β} {compute : Computation σ υ ε α}

theorem Computation.inForm_direct (form : α → β) (compute : Computation σ υ ε α) :
    Request.wrap form compute.direct w = (compute.inForm form).direct w := by
  simp only [Request.wrap, Computation.direct, Computation.inForm]
  rcases compute w with ⟨_ | a, w'⟩ <;> rfl

theorem Computation.eq_error_of_inForm {e : ε} (h : compute.inForm form w = (.error e, w')) :
    compute w = (.error e, w') := by
  rcases hcompute : compute w with ⟨e' | a, w₁⟩
  · obtain ⟨rfl, rfl⟩ : e' = e ∧ w₁ = w' := by simpa [inForm, hcompute, Except.map] using h
    rfl
  · simp [inForm, hcompute, Except.map] at h

theorem Computation.exists_of_inForm {b : β} (h : compute.inForm form w = (.ok b, w')) :
    ∃ a, compute w = (.ok a, w') ∧ form a = b := by
  rcases hcompute : compute w with ⟨e | a, w₁⟩
  · simp [inForm, hcompute, Except.map] at h
  · obtain ⟨hform, rfl⟩ : form a = b ∧ w₁ = w' := by
      simpa [inForm, hcompute, Except.map] using h
    exact ⟨a, rfl, hform⟩

end

/-- The values in a reply. -/
def Reply.present {ρ : Type} {τ : Kind} : Reply ρ τ → List τ
  | .value v => v.toList
  | .values vs => vs.filterMap id
  | .other _ | .flag _ | .count _ => []

namespace Request

variable {σ υ ε ρ : Type} {κ τ : Kind} {c : Cache σ} {w : World σ υ}

/-! ## What a request is made of -/

def options : Request σ υ ε ρ κ τ → Options
  | .read o _ _ | .readMany o _ _ | .write o _ _ | .writeMany o _ _ | .writeByResult o _
  | .writeManyByResult o _ | .invalidate o _ | .invalidateMany o _ | .invalidateAround o _ _ _
  | .invalidateManyAround o _ _ _ | .invalidateByResult o _ | .invalidateManyByResult o _ => o

def objects : Request σ υ ε ρ κ τ → List κ
  | .read _ x _ | .write _ x _ | .invalidate _ x | .invalidateAround _ x _ _ => [x]
  | .readMany _ xs _ | .writeMany _ xs _ | .invalidateMany _ xs
  | .invalidateManyAround _ xs _ _ => xs
  | .writeByResult .. | .writeManyByResult .. | .invalidateByResult ..
  | .invalidateManyByResult .. => []

/-- The objects that a request builds keys for. A batch read builds one for objects that are equal,
that of the first. -/
def keyObjects : Request σ υ ε ρ κ τ → List κ
  | .readMany _ xs _ => xs.eraseDups
  | r => r.objects

/-- Whether the keys of results matter. -/
def isByResult : Request σ υ ε ρ κ τ → Bool
  | .readMany o _ _ => o.keysFromResults
  | .writeByResult .. | .writeManyByResult .. | .invalidateByResult ..
  | .invalidateManyByResult .. => true
  | .read .. | .write .. | .writeMany .. | .invalidate .. | .invalidateMany ..
  | .invalidateAround .. | .invalidateManyAround .. => false

def isRead : Request σ υ ε ρ κ τ → Bool
  | .read .. => true
  | _ => false

def isEmptyRead : Request σ υ ε ρ κ τ → Bool
  | .readMany _ xs _ => xs.isEmpty
  | _ => false

/-- What the source of a request is asked, if it has one. -/
def source? : Request σ υ ε ρ κ τ → List κ → Option (Computation σ υ ε (Reply ρ τ))
  | .read _ _ compute, _ | .write _ _ compute, _ | .writeByResult _ compute, _
  | .invalidateByResult _ compute, _ => some (compute.inForm .value)
  | .readMany _ _ source, asked => some ((source asked).inForm .values)
  | .writeMany _ _ compute, _ | .writeManyByResult _ compute, _
  | .invalidateManyByResult _ compute, _ => some (compute.inForm .values)
  | .invalidateAround _ _ _ compute, _ | .invalidateManyAround _ _ _ compute, _ =>
    some (compute.inForm .other)
  | .invalidate .., _ | .invalidateMany .., _ => none

/-! ## What can be said against it -/

/-- What is wrong with a request that cannot be made. -/
inductive Faulty (c : Cache σ) (r : Request σ υ ε ρ κ τ) : Prop
  | options {e : ConfigError} (h : r.options.validate = .error e)
  | object {x : κ} {e : ConfigError} (hx : x ∈ r.keyObjects)
      (h : c.keys.keyFor r.options.keyspace x = .error e)
  | kind (h : r.isByResult = true) (hkind : c.registry.isRegistered τ = false)
  | mode (h : r.isRead = true) (hmode : r.options.keysFromResults = true)

/-- What is right with any other. -/
structure Valid (c : Cache σ) (r : Request σ υ ε ρ κ τ) : Prop where
  options : r.options.validate = .ok ()
  objects : ∀ x ∈ r.keyObjects, ∃ key, c.keys.keyFor r.options.keyspace x = .ok key
  kind : r.isByResult = true → c.registry.isRegistered τ = true
  mode : r.isRead = true → r.options.keysFromResults = false

/-- An object without a valid key makes a request faulty. That a batch read does not look at it when
an equal one comes before does not matter if equal objects have one key. -/
theorem faulty_of_object {r : Request σ υ ε ρ κ τ} {x : κ} {e : ConfigError} (hx : x ∈ r.objects)
    (h : c.keys.keyFor r.options.keyspace x = .error e)
    (hequal : Unites (c.keys.keyFor r.options.keyspace) r.objects) : r.Faulty c := by
  cases r with
  | readMany o xs source =>
      obtain ⟨y, hy, hxy⟩ := exists_mem_eraseDups hx
      have hfirst : c.keys.keyFor o.keyspace y = .error e :=
        (hequal x hx y (eraseDups_subset xs hy) hxy).symm.trans h
      exact .object hy hfirst
  | _ => exact .object hx h

theorem valid_of_not_faulty {r : Request σ υ ε ρ κ τ} (h : ¬r.Faulty c) : r.Valid c where
  options := by
    cases hvalid : r.options.validate with
    | ok u => rfl
    | error e => exact absurd (.options hvalid) h
  objects := fun x hx => by
    cases hkey : c.keys.keyFor r.options.keyspace x with
    | ok key => exact ⟨key, rfl⟩
    | error e => exact absurd (.object hx hkey) h
  kind := fun hby => by
    cases hkind : c.registry.isRegistered τ with
    | true => rfl
    | false => exact absurd (.kind hby hkind) h
  mode := fun hread => by
    cases hmode : r.options.keysFromResults with
    | true => exact absurd (.mode hread hmode) h
    | false => rfl

/-- The error for results of which one has no valid key, if there is one. -/
def resultKeys (c : Cache σ) (o : Options) (vs : List τ) : Except CacheError Unit :=
  match vs.mapM (c.keys.keyForResult o.keyspace) with
  | .ok _ => .ok ()
  | .error e => .error (.config e)

/-- The error for results that do not fit in number. -/
def resultCount (expected got : Nat) : Except CacheError Unit :=
  if got = expected then .ok () else .error (.reconciliation (.lengthMismatch expected got))

/-- What can be said against the answer of the source. -/
def verdict (c : Cache σ) : Request σ υ ε ρ κ τ → List κ → Reply ρ τ → Except CacheError Unit
  | .readMany o _ _, asked, .values results =>
    if o.keysFromResults then resultKeys c o (results.filterMap id)
    else resultCount asked.length results.length
  | .writeMany _ xs _, _, .values results => resultCount xs.length results.length
  | .writeByResult o _, _, .value v | .invalidateByResult o _, _, .value v =>
    resultKeys c o v.toList
  | .writeManyByResult o _, _, .values results | .invalidateManyByResult o _, _, .values results =>
    resultKeys c o (results.filterMap id)
  | _, _, _ => .ok ()

/-! ## What comes before the source -/

/-- The different valid keys of the objects of a request. -/
def keys (c : Cache σ) (r : Request σ υ ε ρ κ τ) : List Key :=
  (r.keyObjects.filterMap fun x => (c.keys.keyFor r.options.keyspace x).toOption).eraseDups

/-- The store calls that a request makes before it asks its source; all of them if it has none. -/
def openingCalls (c : Cache σ) (r : Request σ υ ε ρ κ τ) : List StoreCall :=
  match r with
  | .read o _ _ => (r.keys c).flatMap (Cache.getCalls o)
  | .readMany o _ _ => Cache.bulkCalls o (r.keys c)
  | .invalidate .. | .invalidateMany .. | .invalidateAround _ _ .before _
  | .invalidateManyAround _ _ .before _ => (r.keys c).map .delete
  | _ => []

/-- Whether a request does without its source. -/
def IsServed (c : Cache σ) (s : Scene σ) (r : Request σ υ ε ρ κ τ) : Prop :=
  match r with
  | .read o _ _ => ∀ key ∈ r.keys c, (c.recalledOne o τ key s).isSome = true
  | .readMany o _ _ => c.missedKeys o τ (r.keys c) s = []
  | .invalidate .. | .invalidateMany .. => True
  | _ => False

theorem keys_eq {r : Request σ υ ε ρ κ τ} {keyOf : κ → Key}
    (h : ∀ x ∈ r.keyObjects, c.keys.keyFor r.options.keyspace x = .ok (keyOf x)) :
    r.keys c = (r.keyObjects.map keyOf).eraseDups := by
  have hmap : ∀ x ∈ r.keyObjects,
      (c.keys.keyFor r.options.keyspace x).toOption = some (keyOf x) :=
    fun x hx => by rw [h x hx]; rfl
  rw [keys, List.filterMap_congr hmap]
  exact congrArg List.eraseDups (congrFun List.filterMap_eq_map r.keyObjects)

theorem keys_readMany {o : Options} {xs : List κ}
    {source : List κ → Computation σ υ ε (List (Option τ))} {keyOf : κ → Key}
    (h : Batch.Assigns c.keys o.keyspace xs keyOf) :
    (readMany o xs source : Request σ υ ε ρ κ τ).keys c = (xs.map keyOf).eraseDups := by
  rw [keys_eq h.first, keyObjects, eraseDups_map_eraseDups h.unites]

theorem Valid.exists_keyOf {r : Request σ υ ε ρ κ τ} (h : r.Valid c) : ∃ keyOf : κ → Key,
    ∀ x ∈ r.keyObjects, c.keys.keyFor r.options.keyspace x = .ok (keyOf x) := by
  refine ⟨fun x => (c.keys.keyFor r.options.keyspace x).toOption.getD default, fun x hx => ?_⟩
  obtain ⟨key, hkey⟩ := h.objects x hx
  simp only [hkey]
  rfl

/-! ## Replies -/

theorem wrap_eq {α β : Type} (form : α → β) (outcome : Outcome σ υ ε α) (w : World σ υ) :
    wrap form outcome w = ((outcome w).1.map form, (outcome w).2) := by
  unfold wrap
  rcases outcome w with ⟨answer, w'⟩
  cases answer <;> rfl

theorem snd_wrapRefusal {α β : Type} (form : α → β)
    (call : World σ υ → Except CacheError α × World σ υ) (w : World σ υ) :
    (wrapRefusal form call w : Except (Failure ε) β × World σ υ).2 = (call w).2 := by
  unfold wrapRefusal
  rcases call w with ⟨answer, w'⟩
  cases answer <;> rfl

end Request

end CacheAside

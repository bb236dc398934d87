import CacheAside.Proofs.Firsts
import CacheAside.Proofs.KeyGrammar

/-!
# Registrations

A registry that is written to and asked in any order. What it answers at any time follows from the
registrations so far: the first one of a kind counts and stays. The key of a value is made of what
that one says, and is accepted or refused by the same rules whichever way it is asked for.
-/

namespace CacheAside

namespace Registry

/-! ## Registries as histories -/

/-- An identity function for a kind. -/
abbrev Registration := (k : Kind) × (k → String)

variable {r : Registry} {regs : List Registration} {k : Kind}

/-- A registry that has come from some registrations. -/
def Holds (r : Registry) (regs : List Registration) : Prop :=
  r.entries = firsts Sigma.fst regs

theorem holds_empty : empty.Holds [] := rfl

theorem find?_filter_kind {j : Kind} (hjk : k ≠ j) : ∀ regs : List Registration,
    find? k (regs.filter fun p => !p.1 == j) = find? k regs
  | [] => rfl
  | ⟨i, identity⟩ :: regs => by
      have ih := find?_filter_kind hjk regs
      by_cases hij : i = j
      · have hik : i ≠ k := fun h => hjk (h.symm.trans hij)
        simp [hij, find?, ih, hij ▸ hik]
      · by_cases hik : i = k
        · subst hik
          simp [hij, find?]
        · simp [hij, find?, hik, ih]

theorem find?_firsts (k : Kind) (regs : List Registration) :
    find? k (firsts Sigma.fst regs) = find? k regs := by
  induction regs using firsts_induction (Sigma.fst : Registration → Kind) with
  | nil => rfl
  | cons p regs ih =>
      obtain ⟨j, identity⟩ := p
      rw [firsts_cons]
      by_cases hjk : j = k
      · simp [find?, hjk]
      · simp only [find?, hjk, ↓reduceDIte]
        exact ih.trans (find?_filter_kind (Ne.symm hjk) regs)

theorem find?_append_cons {earlier later : List Registration} {identity : k → String}
    (h : k ∉ earlier.map (·.1)) : find? k (earlier ++ ⟨k, identity⟩ :: later) = some identity := by
  induction earlier with
  | nil => simp [find?]
  | cons p earlier ih =>
      obtain ⟨j, identity'⟩ := p
      obtain ⟨hkj, hrest⟩ := not_or.mp (List.mem_cons.not.mp h)
      simp only [List.cons_append, find?, Ne.symm hkj, ↓reduceDIte, ih hrest]

theorem find?_eq_none (h : k ∉ regs.map (·.1)) : find? k regs = none := by
  induction regs with
  | nil => rfl
  | cons p regs ih =>
      obtain ⟨j, identity⟩ := p
      obtain ⟨hkj, hrest⟩ := not_or.mp (List.mem_cons.not.mp h)
      simp only [find?, Ne.symm hkj, ↓reduceDIte, ih hrest]

theorem Holds.isRegistered (h : r.Holds regs) (k : Kind) :
    r.isRegistered k = decide (k ∈ regs.map (·.1)) := by
  rw [Bool.eq_iff_iff, decide_eq_true_iff, ← mem_map_firsts, Registry.isRegistered, h]
  simp

theorem Holds.size (h : r.Holds regs) : r.size = (regs.map (·.1)).eraseDups.length := by
  rw [Registry.size, h, ← map_firsts, List.length_map]

theorem Holds.lookup (h : r.Holds regs) (x : k) : r.lookup x = (find? k regs).map (· x) := by
  rw [Registry.lookup, h, find?_firsts]

theorem Holds.register (h : r.Holds regs) (k : Kind) (identity : k → String) :
    (r.register k identity).1 = decide (k ∉ regs.map (·.1)) ∧
      (r.register k identity).2.Holds (regs ++ [⟨k, identity⟩]) := by
  have hregistered := h.isRegistered k
  rw [Registry.register, Holds, firsts_concat, ← h]
  by_cases hk : k ∈ regs.map (·.1)
  · simp [hregistered, hk]
  · simp [hregistered, hk]

/-! ## Runs -/

inductive Step where
  | register (k : Kind) (identity : k → String)
  | isRegistered (k : Kind)
  | size
  | derive (k : Kind) (x : k)
  | deriveRegistered (k : Kind) (x : k)

inductive Answer where
  | flag (yes : Bool)
  | count (n : Nat)
  | identity (id : Except ConfigError String)

def Step.run (r : Registry) : Step → Answer × Registry
  | register k identity =>
    let (isNew, r) := r.register k identity
    (.flag isNew, r)
  | isRegistered k => (.flag (r.isRegistered k), r)
  | size => (.count r.size, r)
  | derive _ x => (.identity (r.derive x), r)
  | deriveRegistered _ x => (.identity (r.deriveRegistered x), r)

def runAll : List Step → Registry → List Answer × Registry
  | [], r => ([], r)
  | step :: steps, r =>
    let (answer, r) := step.run r
    let (answers, r) := runAll steps r
    (answer :: answers, r)

/-- What some steps register, the repetitions included. -/
def registrations : List Step → List Registration
  | [] => []
  | .register k identity :: steps => ⟨k, identity⟩ :: registrations steps
  | _ :: steps => registrations steps

/-- What a step answers behind some registrations. -/
def Step.due (regs : List Registration) : Step → Answer
  | register k _ => .flag (decide (k ∉ regs.map (·.1)))
  | isRegistered k => .flag (decide (k ∈ regs.map (·.1)))
  | size => .count (regs.map (·.1)).eraseDups.length
  | derive k x => .identity (checkDerived k (((find? k regs).map (· x)).getD (k.text x)))
  | deriveRegistered k x => .identity <|
    match find? k regs with
    | some identity => checkDerived k (identity x)
    | none => .error (unregistered k)

theorem registrations_append (steps steps' : List Step) :
    registrations (steps ++ steps') = registrations steps ++ registrations steps' := by
  induction steps with
  | nil => rfl
  | cons step steps ih =>
      rw [List.cons_append]
      cases step with
      | register k identity => exact congrArg _ ih
      | isRegistered | size | derive | deriveRegistered => exact ih

theorem Holds.run (h : r.Holds regs) (step : Step) :
    (step.run r).1 = step.due regs ∧ (step.run r).2.Holds (regs ++ registrations [step]) := by
  cases step with
  | register k identity =>
      obtain ⟨hnew, hholds⟩ := h.register k identity
      exact ⟨congrArg Answer.flag hnew, hholds⟩
  | isRegistered k => exact ⟨congrArg Answer.flag (h.isRegistered k), by simpa [registrations]⟩
  | size => exact ⟨congrArg Answer.count h.size, by simpa [registrations]⟩
  | derive k x =>
      refine ⟨?_, by simpa [registrations]⟩
      rw [Step.run, Registry.derive, h.lookup, Step.due]
  | deriveRegistered k x =>
      refine ⟨?_, by simpa [registrations]⟩
      rw [Step.run, Registry.deriveRegistered, h.lookup, Step.due]
      cases find? k regs <;> rfl

theorem runAll_append (steps steps' : List Step) (r : Registry) :
    runAll (steps ++ steps') r =
      ((runAll steps r).1 ++ (runAll steps' (runAll steps r).2).1,
        (runAll steps' (runAll steps r).2).2) := by
  induction steps generalizing r with
  | nil => rfl
  | cons step steps ih => simp only [List.cons_append, runAll, ih]

theorem length_runAll (steps : List Step) (r : Registry) :
    (runAll steps r).1.length = steps.length := by
  induction steps generalizing r with
  | nil => rfl
  | cons step steps ih => simp only [runAll, List.length_cons, ih]

theorem Holds.runAll (h : r.Holds regs) (steps : List Step) :
    (runAll steps r).2.Holds (regs ++ registrations steps) := by
  induction steps generalizing r regs with
  | nil => simpa [registrations, Registry.runAll] using h
  | cons step steps ih =>
      have hrest := ih (h.run step).2
      rw [List.append_assoc, ← registrations_append] at hrest
      exact hrest

theorem holds_runAll (steps : List Step) : (runAll steps empty).2.Holds (registrations steps) :=
  holds_empty.runAll steps

/-- Each answer of a run is due to the registrations before it. -/
theorem answer_runAll (before rest : List Step) (step : Step) :
    (runAll (before ++ step :: rest) empty).1[before.length]? =
      some (step.due (registrations before)) := by
  rw [runAll_append, ← length_runAll before empty, List.getElem?_append_right (Nat.le_refl _),
    Nat.sub_self]
  exact congrArg some ((holds_runAll before).run step).1

end Registry

/-! ## Keys -/

namespace KeyBuilder

/-- What comes of an identity of a value of some kind: a key, or what is wrong first. -/
structure Judges (b : KeyBuilder) (ns : String) (k : Kind) (id : String)
    (answer : Except ConfigError Key) : Prop where
  accepts : (∃ key, answer = .ok key) ↔ Key.IsIdentity id ∧ Key.IsKeyspace ns ∧
    ns.utf8ByteSize + 1 + id.utf8ByteSize ≤ b.maxLength.toNat
  key : ∀ key, answer = .ok key → key = ⟨ns ++ ":" ++ id⟩
  blank : isBlank id = true → answer = .error
    (.invalidValue "identity" id ("identity derived from " ++ k.typeName ++ " is empty"))
  keyspace : isBlank id = false → ∀ e, Key.checkKeyspace ns = .error e → answer = .error e
  unclean : isBlank id = false → Key.IsKeyspace ns → ¬Key.Clean id → answer = .error
    (.invalidValue "id" id "identity must not contain whitespace or control characters")
  long : Key.IsIdentity id → Key.IsKeyspace ns →
    b.maxLength.toNat < ns.utf8ByteSize + 1 + id.utf8ByteSize → answer = .error
      (.invalidValue "key" (ns ++ ":" ++ id)
        ("key exceeds " ++ toString b.maxLength.toNat ++ " bytes"))

/-- The key of an identity that has been derived. -/
def keyOf (b : KeyBuilder) (ns : String) (k : Kind) (id : String) : Except ConfigError Key :=
  match Registry.checkDerived k id with
  | .error e => .error e
  | .ok id => b.build ns [id]

theorem build_of_valid (b : KeyBuilder) {ns id : String} (hns : Key.IsKeyspace ns)
    (hid : Key.IsIdentity id) : b.build ns [id] =
      if b.maxLength.toNat < ns.utf8ByteSize + 1 + id.utf8ByteSize then .error
        (.invalidValue "key" (ns ++ ":" ++ id)
          ("key exceeds " ++ toString b.maxLength.toNat ++ " bytes"))
      else .ok ⟨ns ++ ":" ++ id⟩ := by
  have hkey : Key.build ns [id] = .ok ⟨ns ++ ":" ++ id⟩ := by
    rw [Key.build_of_parts hns (List.cons_ne_nil _ _) (List.forall_mem_singleton.mpr hid),
      String.intercalate_singleton]
  have hsize : (⟨ns ++ ":" ++ id⟩ : Key).byteSize = ns.utf8ByteSize + 1 + id.utf8ByteSize := by
    rw [Key.byteSize, String.utf8ByteSize_append, String.utf8ByteSize_append]
    rfl
  rw [build, hkey]
  simp only [hsize]

section
variable {b : KeyBuilder} {ns id : String} {k : Kind} {e : ConfigError}

theorem keyOf_of_not_blank (h : isBlank id = false) : b.keyOf ns k id = b.build ns [id] := by
  rw [keyOf, Registry.checkDerived, h]
  rfl

theorem build_of_error {ids : List String} (h : Key.build ns ids = .error e) :
    b.build ns ids = .error e := by
  rw [build, h]

/-- An accepted identity is one, in a keyspace that is one, and the key is not too long. -/
theorem parts_of_keyOf {key : Key} (h : b.keyOf ns k id = .ok key) :
    Key.IsIdentity id ∧ Key.IsKeyspace ns ∧
      ns.utf8ByteSize + 1 + id.utf8ByteSize ≤ b.maxLength.toNat ∧ key = ⟨ns ++ ":" ++ id⟩ := by
  cases hblank : isBlank id with
  | true => simp [keyOf, Registry.checkDerived, hblank] at h
  | false =>
      rw [keyOf_of_not_blank hblank] at h
      obtain ⟨hns, -, hids⟩ := Key.parts_of_build (build_of_build h)
      have hid := hids id List.mem_cons_self
      rw [build_of_valid b hns hid] at h
      split at h
      · cases h
      · next hlength => exact ⟨hid, hns, Nat.le_of_not_lt hlength, (Except.ok.inj h).symm⟩

end

theorem judges_keyOf (b : KeyBuilder) (ns : String) (k : Kind) (id : String) :
    Judges b ns k id (b.keyOf ns k id) where
  accepts := by
    constructor
    · rintro ⟨key, h⟩
      obtain ⟨hid, hns, hlength, -⟩ := parts_of_keyOf h
      exact ⟨hid, hns, hlength⟩
    · rintro ⟨hid, hns, hlength⟩
      rw [keyOf_of_not_blank (Key.isIdentity_iff.mp hid).1, build_of_valid b hns hid,
        if_neg (Nat.not_lt.mpr hlength)]
      exact ⟨_, rfl⟩
  key key h := (parts_of_keyOf h).2.2.2
  blank h := by
    rw [keyOf, Registry.checkDerived, h]
    rfl
  keyspace h e he := by
    rw [keyOf_of_not_blank h]
    exact build_of_error (Key.build_of_keyspace_error he [id])
  unclean h hns hclean := by
    have hforbidden : hasForbiddenChar id = true := by
      rwa [← Key.hasForbiddenChar_eq_false, Bool.not_eq_false] at hclean
    have hcheck : Key.checkIdentity id = .error (.invalidValue "id" id
        "identity must not contain whitespace or control characters") := by
      simp [Key.checkIdentity, h, hforbidden]
    rw [keyOf_of_not_blank h]
    exact build_of_error
      (Key.build_of_identity_error hns (List.forall_mem_nil _) hcheck [])
  long hid hns hlength := by
    rw [keyOf_of_not_blank (Key.isIdentity_iff.mp hid).1, build_of_valid b hns hid,
      if_pos hlength]

theorem keyFor_eq (b : KeyBuilder) (ns : String) {k : Kind} (x : k) :
    b.keyFor ns x = b.keyOf ns k ((b.registry.lookup x).getD (k.text x)) := rfl

theorem keyForResult_eq (b : KeyBuilder) (ns : String) {k : Kind} (x : k) :
    b.keyForResult ns x = match b.registry.lookup x with
      | some id => b.keyOf ns k id
      | none => .error (Registry.unregistered k) := by
  rw [keyForResult, Registry.deriveRegistered]
  cases b.registry.lookup x <;> rfl

end KeyBuilder

/-! ## All at once -/

open Registry

/-- Whatever is registered and asked in whatever order, each answer is due to the registrations
before it. A value of a registered kind has the identity that the first registration says, and
keeps it; its key, or what is wrong with it, is the same for an object and for a result. A kind
that is not registered has its texts for its objects, and no keys for its results. -/
theorem keys_after_registrations (steps : List Registry.Step) :
    (∀ before step rest, steps = before ++ step :: rest →
      (runAll steps empty).1[before.length]? = some (step.due (registrations before))) ∧
    ∀ (k : Kind) (x : k) (ns : String) (maxLength : UInt64),
      (∀ earlier identity later, registrations steps = earlier ++ ⟨k, identity⟩ :: later →
        k ∉ earlier.map (·.1) → ∀ steps',
          let r := (runAll (steps ++ steps') empty).2
          let b : KeyBuilder := ⟨r, maxLength⟩
          r.derive x = checkDerived k (identity x) ∧
            r.deriveRegistered x = checkDerived k (identity x) ∧
            b.keyFor ns x = b.keyForResult ns x ∧
            b.Judges ns k (identity x) (b.keyFor ns x)) ∧
      (k ∉ (registrations steps).map (·.1) →
        let r := (runAll steps empty).2
        let b : KeyBuilder := ⟨r, maxLength⟩
        r.derive x = checkDerived k (k.text x) ∧
          r.deriveRegistered x = .error (unregistered k) ∧
          b.keyForResult ns x = .error (unregistered k) ∧
          b.Judges ns k (k.text x) (b.keyFor ns x)) := by
  refine ⟨fun before step rest hsteps => hsteps ▸ answer_runAll before rest step,
    fun k x ns maxLength => ⟨fun earlier identity later hregs hfirst steps' => ?_, fun hk => ?_⟩⟩
  · have hlookup : (runAll (steps ++ steps') empty).2.lookup x = some (identity x) := by
      rw [(holds_runAll _).lookup, registrations_append, hregs, List.append_assoc,
        List.cons_append, find?_append_cons hfirst]
      rfl
    refine ⟨?_, ?_, ?_, ?_⟩
    · rw [Registry.derive, hlookup]
      rfl
    · rw [Registry.deriveRegistered, hlookup]
    · rw [KeyBuilder.keyFor_eq, KeyBuilder.keyForResult_eq, hlookup]
      rfl
    · rw [KeyBuilder.keyFor_eq, hlookup]
      exact KeyBuilder.judges_keyOf _ ns k (identity x)
  · have hlookup : (runAll steps empty).2.lookup x = none := by
      rw [(holds_runAll steps).lookup, find?_eq_none hk]
      rfl
    refine ⟨?_, ?_, ?_, ?_⟩
    · rw [Registry.derive, hlookup]
      rfl
    · rw [Registry.deriveRegistered, hlookup]
    · rw [KeyBuilder.keyForResult_eq, hlookup]
    · rw [KeyBuilder.keyFor_eq, hlookup]
      exact KeyBuilder.judges_keyOf _ ns k (k.text x)

/-- A second rule for a kind changes nothing, and a kind without a rule has no keys for results. -/
theorem keys_after_registrations_of_second_rule :
    let rule : IdentityRule → Kind.word32 → String := fun r => r.identity .word32
    let steps : List Registry.Step := [.register .word32 (rule (.constant "a")),
      .derive .word32 (5 : UInt32), .register .word32 (rule .canonical), .size]
    let b : KeyBuilder := ⟨(runAll steps empty).2, 3⟩
    registrations steps =
        [] ++ ⟨.word32, rule (.constant "a")⟩ :: [⟨.word32, rule .canonical⟩] ∧
      Kind.string ∉ (registrations steps).map (·.1) ∧
      (runAll steps empty).1[3]? = some (.count 1) ∧
      b.keyFor "n" (k := .word32) (5 : UInt32) = .ok ⟨"n:a"⟩ ∧
      b.keyForResult "n" (k := .word32) (5 : UInt32) = .ok ⟨"n:a"⟩ ∧
      b.keyForResult "n" (k := .string) "s" = .error (unregistered .string) := by
  intro rule steps b
  have hregs : registrations steps =
    [] ++ ⟨.word32, rule (.constant "a")⟩ :: [⟨.word32, rule .canonical⟩] := rfl
  have hstring : Kind.string ∉ (registrations steps).map (·.1) := by decide
  obtain ⟨hanswers, hkeys⟩ := keys_after_registrations steps
  have hsize := hanswers (steps.take 3) .size [] rfl
  obtain ⟨-, -, hsame, hjudged⟩ :=
    (hkeys .word32 (5 : UInt32) "n" 3).1 [] _ _ hregs List.not_mem_nil []
  obtain ⟨-, -, hresult, -⟩ := (hkeys .string "s" "n" 3).2 hstring
  have hvalid : Key.IsIdentity "a" ∧ Key.IsKeyspace "n" :=
    ⟨⟨by decide, by decide +kernel⟩, ⟨by decide, by decide +kernel⟩, by decide +kernel⟩
  obtain ⟨key, hkey⟩ := hjudged.accepts.mpr ⟨hvalid.1, hvalid.2, by decide +kernel⟩
  obtain rfl := hjudged.key key hkey
  exact ⟨hregs, hstring, hsize, hkey, hsame.symm.trans hkey, hresult⟩

end CacheAside

import CacheAside.Proofs.Keys

/-!
# The grammar of keys

Which keyspaces and identities make a key, which texts are keys, and what is said against the
others. A key gives back its keyspace and its identities as they are joined, so it can be built
again from these two.
-/

namespace CacheAside.Key

/-! ## Clean texts -/

/-- No character of a text is blank or a control character. -/
def Clean (s : String) : Prop := ∀ c ∈ s.toList, isBlankChar c = false ∧ isControlChar c = false

instance (s : String) : Decidable (Clean s) :=
  List.decidableBAll (fun c => isBlankChar c = false ∧ isControlChar c = false) s.toList

/-- What an identity has to be. -/
structure IsIdentity (id : String) : Prop where
  ne_empty : id ≠ ""
  clean : Clean id

/-- What a keyspace has to be: an identity without a colon. -/
structure IsKeyspace (ns : String) : Prop extends IsIdentity ns where
  colon : ':' ∉ ns.toList

variable {s t ns ns' id : String} {ids ids' : List String} {k k' : Key}

theorem hasForbiddenChar_eq_false : hasForbiddenChar s = false ↔ Clean s := by
  simp [hasForbiddenChar, isForbiddenChar, Clean]

theorem clean_append : Clean (s ++ t) ↔ Clean s ∧ Clean t := by
  rw [Clean, String.toList_append, List.forall_mem_append]
  rfl

theorem clean_separator : Clean ":" := by decide

theorem clean_idSeparator : Clean idSeparator := by decide

/-- Blank is a clean text only if it is empty. -/
theorem isIdentity_iff : IsIdentity s ↔ isBlank s = false ∧ hasForbiddenChar s = false := by
  constructor
  · intro h
    have hclean := hasForbiddenChar_eq_false.mpr h.clean
    exact ⟨isBlank_eq_false_of_ne_empty h.ne_empty hclean, hclean⟩
  · rintro ⟨hblank, hclean⟩
    refine ⟨?_, hasForbiddenChar_eq_false.mp hclean⟩
    rintro rfl
    simp [isBlank] at hblank

/-- Identities that are joined make an identity. -/
theorem isIdentity_intercalate : ∀ {ids : List String}, ids ≠ [] → (∀ id ∈ ids, IsIdentity id) →
    IsIdentity (idSeparator.intercalate ids)
  | [id], _, h => by
      rw [String.intercalate_singleton]
      exact h id List.mem_cons_self
  | id :: id' :: ids, _, h => by
      have ih := isIdentity_intercalate (List.cons_ne_nil id' ids)
        fun x hx => h x (List.mem_cons_of_mem _ hx)
      have hid := h id List.mem_cons_self
      rw [String.intercalate_cons_cons]
      refine ⟨fun hempty => hid.ne_empty ?_, ?_⟩
      · simp only [String.append_eq_empty_iff] at hempty
        exact hempty.1.1
      · exact clean_append.mpr ⟨clean_append.mpr ⟨hid.clean, clean_idSeparator⟩, ih.clean⟩

/-! ## What the checks accept -/

theorem checkIdentity_eq_ok : checkIdentity id = .ok () ↔ IsIdentity id := by
  rw [isIdentity_iff, checkIdentity]
  cases isBlank id with
  | true => simp
  | false => cases hasForbiddenChar id <;> simp

theorem checkKeyspace_eq_ok : checkKeyspace ns = .ok () ↔ IsKeyspace ns := by
  have hkeyspace : IsKeyspace ns ↔ IsIdentity ns ∧ ':' ∉ ns.toList :=
    ⟨fun h => ⟨h.toIsIdentity, h.colon⟩, fun h => ⟨h.1, h.2⟩⟩
  rw [hkeyspace, isIdentity_iff, checkKeyspace, separator]
  cases isBlank ns with
  | true => simp
  | false =>
      by_cases hcolon : ':' ∈ ns.toList
      · simp [hcolon]
      · cases hasForbiddenChar ns <;> simp [hcolon]

theorem checkIdentities_append (h : ∀ id ∈ ids, IsIdentity id) (rest : List String) :
    checkIdentities (ids ++ rest) = checkIdentities rest := by
  induction ids with
  | nil => rfl
  | cons id ids ih =>
      have hid := checkIdentity_eq_ok.mpr (h id List.mem_cons_self)
      rw [List.cons_append, checkIdentities, hid]
      exact ih fun x hx => h x (List.mem_cons_of_mem _ hx)

theorem checkIdentities_eq_ok : checkIdentities ids = .ok () ↔ ∀ id ∈ ids, IsIdentity id := by
  refine ⟨fun h => ?_, fun h => ?_⟩
  · induction ids with
    | nil => simp
    | cons id ids ih =>
        rw [checkIdentities] at h
        cases hid : checkIdentity id with
        | error e => rw [hid] at h; cases h
        | ok u =>
            rw [hid] at h
            exact List.forall_mem_cons.mpr ⟨checkIdentity_eq_ok.mp hid, ih h⟩
  · simpa [checkIdentities] using checkIdentities_append h []

/-! ## What is built -/

theorem build_of_ne_nil (hns : IsKeyspace ns) (hne : ids ≠ []) : build ns ids =
    match checkIdentities ids with
    | .error e => .error e
    | .ok () => .ok ⟨ns ++ ":" ++ idSeparator.intercalate ids⟩ := by
  obtain ⟨id, rest, rfl⟩ := List.exists_cons_of_ne_nil hne
  rw [build, checkKeyspace_eq_ok.mpr hns]
  rfl

theorem build_of_parts (hns : IsKeyspace ns) (hne : ids ≠ []) (hids : ∀ id ∈ ids, IsIdentity id) :
    build ns ids = .ok ⟨ns ++ ":" ++ idSeparator.intercalate ids⟩ := by
  rw [build_of_ne_nil hns hne, checkIdentities_eq_ok.mpr hids]

theorem parts_of_build (h : build ns ids = .ok k) :
    IsKeyspace ns ∧ ids ≠ [] ∧ ∀ id ∈ ids, IsIdentity id := by
  unfold build at h
  cases hns : checkKeyspace ns with
  | error e => rw [hns] at h; cases h
  | ok u =>
      rw [hns] at h
      cases ids with
      | nil => cases h
      | cons id rest =>
          cases hids : checkIdentities (id :: rest) with
          | error e => simp only [hids] at h; cases h
          | ok u =>
              exact ⟨checkKeyspace_eq_ok.mp hns, List.cons_ne_nil id rest,
                checkIdentities_eq_ok.mp hids⟩

theorem idPath_mk (hns : ':' ∉ ns.toList) (path : String) :
    idPath ⟨ns ++ ":" ++ path⟩ = path := by
  have hall : ∀ c ∈ ns.toList, (c != separator) = true := fun c hc =>
    bne_iff_ne.mpr (ne_of_mem_of_not_mem hc hns)
  have hlist : (ns ++ ":" ++ path).toList = ns.toList ++ separator :: path.toList := by
    simp [separator]
  rw [idPath, hlist, List.dropWhile_append_of_pos hall]
  simp

theorem idPath_build (h : build ns ids = .ok k) : k.idPath = idSeparator.intercalate ids := by
  obtain ⟨hns, hne, hids⟩ := parts_of_build h
  obtain rfl := Except.ok.inj (h.symm.trans (build_of_parts hns hne hids))
  exact idPath_mk hns.colon _

/-- Each accessor gives back what has gone in, and together they are all of a key. -/
theorem build_accessors (h : build ns ids = .ok k) :
    build k.keyspace [k.idPath] = .ok k := by
  obtain ⟨hns, hne, hids⟩ := parts_of_build h
  rw [keyspace_build h, idPath_build h,
    build_of_parts hns (List.cons_ne_nil _ _) (List.forall_mem_singleton.mpr
      (isIdentity_intercalate hne hids)),
    String.intercalate_singleton, ← build_of_parts hns hne hids, h]

theorem build_inj (h : build ns ids = .ok k) (h' : build ns' ids' = .ok k') :
    k = k' ↔ ns = ns' ∧ idSeparator.intercalate ids = idSeparator.intercalate ids' := by
  constructor
  · rintro rfl
    exact ⟨(keyspace_build h).symm.trans (keyspace_build h'),
      (idPath_build h).symm.trans (idPath_build h')⟩
  · rintro ⟨hns, hpath⟩
    have hkey := build_accessors h
    rw [keyspace_build h, idPath_build h, hns, hpath, ← keyspace_build h', ← idPath_build h',
      build_accessors h'] at hkey
    exact (Except.ok.inj hkey).symm

/-- A text is a key if and only if it is clean and has something before and behind a first colon. -/
theorem exists_build_iff : (∃ ns ids, build ns ids = .ok ⟨s⟩) ↔
    Clean s ∧ ∃ before behind, s = before ++ ":" ++ behind ∧ before ≠ "" ∧
      ':' ∉ before.toList ∧ behind ≠ "" := by
  constructor
  · rintro ⟨ns, ids, h⟩
    obtain ⟨hns, hne, hids⟩ := parts_of_build h
    have hpath := isIdentity_intercalate hne hids
    obtain rfl := congrArg Key.text (Except.ok.inj (h.symm.trans (build_of_parts hns hne hids)))
    exact ⟨clean_append.mpr ⟨clean_append.mpr ⟨hns.clean, clean_separator⟩, hpath.clean⟩,
      ns, _, rfl, hns.ne_empty, hns.colon, hpath.ne_empty⟩
  · rintro ⟨hclean, before, behind, rfl, hbefore, hcolon, hbehind⟩
    obtain ⟨hfront, hback⟩ := clean_append.mp hclean
    have hns : IsKeyspace before := ⟨⟨hbefore, (clean_append.mp hfront).1⟩, hcolon⟩
    have hids : ∀ id ∈ [behind], IsIdentity id := List.forall_mem_singleton.mpr ⟨hbehind, hback⟩
    refine ⟨before, [behind], ?_⟩
    rw [build_of_parts hns (List.cons_ne_nil _ _) hids, String.intercalate_singleton]

/-! ## What is refused -/

theorem build_of_keyspace_error {e : ConfigError} (h : checkKeyspace ns = .error e)
    (ids : List String) : build ns ids = .error e := by
  unfold build
  rw [h]

/-- The first identity that is none is reported. -/
theorem build_of_identity_error {e : ConfigError} (hns : IsKeyspace ns)
    (hids : ∀ x ∈ ids, IsIdentity x) (h : checkIdentity id = .error e) (rest : List String) :
    build ns (ids ++ id :: rest) = .error e := by
  have hcheck : checkIdentities (ids ++ id :: rest) = .error e := by
    rw [checkIdentities_append hids, checkIdentities, h]
  rw [build_of_ne_nil hns (by simp), hcheck]

/-- What makes a key, what a key gives back, which texts are keys, and what is reported of the
others, in the order in which it is looked for. -/
theorem build_grammar :
    (∀ ns ids, (∃ k, build ns ids = .ok k) ↔
      IsKeyspace ns ∧ ids ≠ [] ∧ ∀ id ∈ ids, IsIdentity id) ∧
    (∀ ns ids k, build ns ids = .ok k →
      k.keyspace = ns ∧ k.idPath = idSeparator.intercalate ids ∧
        build k.keyspace [k.idPath] = .ok k) ∧
    (∀ ns ids k ns' ids' k', build ns ids = .ok k → build ns' ids' = .ok k' →
      (k = k' ↔ ns = ns' ∧ idSeparator.intercalate ids = idSeparator.intercalate ids')) ∧
    (∀ s, (∃ ns ids, build ns ids = .ok ⟨s⟩) ↔
      Clean s ∧ ∃ before behind, s = before ++ ":" ++ behind ∧ before ≠ "" ∧
        ':' ∉ before.toList ∧ behind ≠ "") ∧
    ∀ ns,
      (isBlank ns = true → ∀ ids, build ns ids = .error
        (.invalidValue "namespace" ns "namespace must not be empty")) ∧
      (isBlank ns = false → ':' ∈ ns.toList → ∀ ids, build ns ids = .error
        (.invalidValue "namespace" ns "namespace must not contain the ':' separator")) ∧
      (isBlank ns = false → ':' ∉ ns.toList → ¬Clean ns → ∀ ids, build ns ids = .error
        (.invalidValue "namespace" ns
          "namespace must not contain whitespace or control characters")) ∧
      (IsKeyspace ns → build ns [] = .error (.missingRequired "ids") ∧
        ∀ ids id rest, (∀ x ∈ ids, IsIdentity x) →
          (isBlank id = true → build ns (ids ++ id :: rest) = .error
            (.invalidValue "id" id "identity must not be empty or whitespace")) ∧
          (isBlank id = false → ¬Clean id → build ns (ids ++ id :: rest) = .error
            (.invalidValue "id" id
              "identity must not contain whitespace or control characters"))) := by
  refine ⟨fun ns ids => ⟨fun ⟨k, h⟩ => parts_of_build h, fun ⟨hns, hne, hids⟩ =>
      ⟨_, build_of_parts hns hne hids⟩⟩,
    fun ns ids k h => ⟨keyspace_build h, idPath_build h, build_accessors h⟩,
    fun ns ids k ns' ids' k' h h' => build_inj h h', fun s => exists_build_iff,
    fun ns => ⟨fun hblank => build_of_keyspace_error ?_, fun hblank hcolon =>
      build_of_keyspace_error ?_, fun hblank hcolon hclean => build_of_keyspace_error ?_,
      fun hns => ⟨?_, fun ids id rest hids => ⟨fun hblank => ?_, fun hblank hclean => ?_⟩⟩⟩⟩
  · simp [checkKeyspace, hblank]
  · simp [checkKeyspace, hblank, separator, hcolon]
  · rw [← hasForbiddenChar_eq_false, Bool.not_eq_false] at hclean
    simp [checkKeyspace, hblank, separator, hcolon, hclean]
  · rw [build, checkKeyspace_eq_ok.mpr hns]
  · exact build_of_identity_error hns hids (by simp [checkIdentity, hblank]) rest
  · rw [← hasForbiddenChar_eq_false, Bool.not_eq_false] at hclean
    exact build_of_identity_error hns hids (by simp [checkIdentity, hblank, hclean]) rest

/-- Identities with colons and slashes come back as one path; behind an identity that is none
another is not looked at. -/
theorem build_grammar_of_separators :
    build "n" ["a:b", "c/d"] = .ok ⟨"n:a:b/c/d"⟩ ∧
      (⟨"n:a:b/c/d"⟩ : Key).keyspace = "n" ∧ (⟨"n:a:b/c/d"⟩ : Key).idPath = "a:b/c/d" ∧
      build "n" ["a:b", "c d", ""] = .error (.invalidValue "id" "c d"
        "identity must not contain whitespace or control characters") := by
  obtain ⟨-, haccess, -, -, hrefused⟩ := build_grammar
  have hbuilt : build "n" ["a:b", "c/d"] = .ok ⟨"n:a:b/c/d"⟩ := by decide +kernel
  obtain ⟨hkeyspace, hpath, -⟩ := haccess _ _ _ hbuilt
  have hns : IsKeyspace "n" := ⟨⟨by decide, by decide +kernel⟩, by decide +kernel⟩
  obtain ⟨-, hid⟩ := (hrefused "n").2.2.2 hns
  have hfirst : ∀ x ∈ ["a:b"], IsIdentity x :=
    List.forall_mem_singleton.mpr ⟨by decide, by decide +kernel⟩
  have hbad := (hid ["a:b"] "c d" [""] hfirst).2 (by decide +kernel) (by decide +kernel)
  exact ⟨hbuilt, hkeyspace, hpath, hbad⟩

end CacheAside.Key

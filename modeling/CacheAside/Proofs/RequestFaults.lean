import CacheAside.Proofs.Requests

/-!
# Faulty requests

A request with a bad input fails before anything happens.
-/

namespace CacheAside.Request

variable {σ υ ε ρ : Type} {κ τ : Kind} {c : Cache σ} {w : World σ υ}
  (henabled : c.config.disabled = false)
include henabled

theorem run_of_invalid (r : Request σ υ ε ρ κ τ) (hempty : r.isEmptyRead = false) {e : ConfigError}
    (h : r.options.validate = .error e) : r.run c w = (.error (.refused (.config e)), w) := by
  cases r with
  | readMany o xs source =>
      have hne : xs ≠ [] := by simpa [isEmptyRead] using hempty
      have h : o.validate = .error e := h
      simp [run, wrap, Cache.readMany, hne, henabled, h, refuse]
  | read o | write o | writeMany o | writeByResult o | writeManyByResult o | invalidate o
  | invalidateMany o | invalidateAround o | invalidateManyAround o | invalidateByResult o
  | invalidateManyByResult o =>
      have h : o.validate = .error e := h
      simp [run, wrap, wrapRefusal, Cache.read, Cache.write, Cache.writeMany, Cache.writeByResult,
        Cache.writeManyByResult, Cache.invalidate, Cache.invalidateMany, Cache.invalidateAround,
        Cache.invalidateManyAround, Cache.invalidateByResult, Cache.invalidateManyByResult,
        henabled, h, refuse]

theorem run_of_unregistered (r : Request σ υ ε ρ κ τ) (hempty : r.isEmptyRead = false)
    (hvalid : r.options.validate = .ok ()) (hby : r.isByResult = true)
    (hkind : c.registry.isRegistered τ = false) :
    ∃ e, r.run c w = (.error (.refused (.config e)), w) := by
  have hcheck : c.checkResultKind τ = .error (Registry.unregistered τ) := by
    simp [Cache.checkResultKind, hkind]
  refine ⟨Registry.unregistered τ, ?_⟩
  cases r with
  | readMany o xs source =>
      have hne : xs ≠ [] := by simpa [isEmptyRead] using hempty
      have hvalid : o.validate = .ok () := hvalid
      have hby : o.keysFromResults = true := hby
      simp [run, wrap, Cache.readMany, hne, henabled, hvalid, hby, hcheck, refuse]
  | writeByResult o | writeManyByResult o | invalidateByResult o | invalidateManyByResult o =>
      have hvalid : o.validate = .ok () := hvalid
      simp [run, wrap, Cache.writeByResult, Cache.writeManyByResult, Cache.invalidateByResult,
        Cache.invalidateManyByResult, henabled, hvalid, hcheck, refuse]
  | read | write | writeMany | invalidate | invalidateMany | invalidateAround
  | invalidateManyAround => cases hby

theorem run_of_mode (r : Request σ υ ε ρ κ τ) (hvalid : r.options.validate = .ok ())
    (hread : r.isRead = true) (hmode : r.options.keysFromResults = true) :
    ∃ e, r.run c w = (.error (.refused (.config e)), w) := by
  cases r with
  | read o x compute =>
      have hvalid : o.validate = .ok () := hvalid
      have hmode : o.keysFromResults = true := hmode
      refine ⟨.incompatible "generate_keys_from_result" "single-key read_through", ?_⟩
      simp [run, wrap, Cache.read, henabled, hvalid, hmode, refuse]
  | _ => cases hread

/-- An object without a valid key comes up unless something else has before. -/
theorem run_of_object (r : Request σ υ ε ρ κ τ) (hvalid : r.options.validate = .ok ())
    {x : κ} {e : ConfigError} (hx : x ∈ r.keyObjects)
    (hkey : c.keys.keyFor r.options.keyspace x = .error e) :
    ∃ e, r.run c w = (.error (.refused (.config e)), w) := by
  cases r with
  | read o y compute =>
      obtain rfl : x = y := List.mem_singleton.mp hx
      have hvalid : o.validate = .ok () := hvalid
      have hkey : c.keys.keyFor o.keyspace x = .error e := hkey
      cases hmode : o.keysFromResults with
      | true => exact run_of_mode henabled _ hvalid rfl hmode
      | false => exact ⟨e, by simp [run, wrap, Cache.read, henabled, hvalid, hmode, hkey, refuse]⟩
  | write o y | invalidate o y | invalidateAround o y =>
      obtain rfl : x = y := List.mem_singleton.mp hx
      have hvalid : o.validate = .ok () := hvalid
      have hkey : c.keys.keyFor o.keyspace x = .error e := hkey
      exact ⟨e, by simp [run, wrap, wrapRefusal, Cache.write, Cache.invalidate,
        Cache.invalidateAround, henabled, hvalid, hkey, refuse]⟩
  | readMany o xs source =>
      have hvalid : o.validate = .ok () := hvalid
      have hx : x ∈ xs.eraseDups := hx
      have hne : xs ≠ [] := List.ne_nil_of_mem (eraseDups_subset xs hx)
      obtain ⟨e', he'⟩ := Batch.build_eq_error (τ := τ) hx hkey
      have he' : (Batch.build c.keys o.keyspace xs : Except ConfigError (Batch κ τ)) =
        .error e' := he'
      cases hcheck : (if o.keysFromResults then c.checkResultKind τ else .ok ()) with
      | error e => exact ⟨e, by
          simp [run, wrap, Cache.readMany, hne, henabled, hvalid, hcheck, refuse]⟩
      | ok u => exact ⟨e', by simp [run, wrap, Cache.readMany, hne, henabled, hvalid, hcheck, he',
          refuse]⟩
  | writeMany o xs | invalidateMany o xs | invalidateManyAround o xs =>
      have hvalid : o.validate = .ok () := hvalid
      obtain ⟨e', he'⟩ := mapM_eq_error hkey hx
      have he' : c.keysFor o.keyspace xs = .error e' := he'
      exact ⟨e', by simp [run, wrap, wrapRefusal, Cache.writeMany, Cache.invalidateMany,
        Cache.invalidateManyAround, henabled, hvalid, he', refuse]⟩
  | writeByResult | writeManyByResult | invalidateByResult | invalidateManyByResult => cases hx

theorem run_of_faulty (r : Request σ υ ε ρ κ τ) (hempty : r.isEmptyRead = false)
    (h : r.Faulty c) : ∃ e, r.run c w = (.error (.refused (.config e)), w) := by
  cases hvalid : r.options.validate with
  | error e => exact ⟨e, run_of_invalid henabled r hempty hvalid⟩
  | ok u =>
      cases h with
      | options h => simp [hvalid] at h
      | object hx h => exact run_of_object henabled r hvalid hx h
      | kind h hkind => exact run_of_unregistered henabled r hempty hvalid h hkind
      | mode h hmode => exact run_of_mode henabled r hvalid h hmode

end CacheAside.Request

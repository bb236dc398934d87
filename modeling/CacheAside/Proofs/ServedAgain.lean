import CacheAside.Proofs.FirstValues
import CacheAside.Proofs.Kept

/-!
# Reads that are served again

When a batch read has ended, each of its keys shows the entry that the read has given it, whatever
was stored before. A read of these keys is then served from the store.
-/

namespace CacheAside

open Rig

/-! ## Codecs -/

namespace Codec

/-- An optional value that comes back as it went in. -/
def RoundTrips (codec : Codec) {k : Kind} (o : Option k) : Prop :=
  ∃ bytes, codec.encodeOption o = .ok bytes ∧ codec.decode k bytes = .ok (Entry.ofOption o)

/-- What is asked of every codec: that the null entry comes back as it went in. -/
def KeepsNull (codec : Codec) : Prop := ∀ k : Kind, codec.RoundTrips (none : Option k)

theorem keepsNull_json : json.KeepsNull := fun _ => ⟨sentinel, rfl, rfl⟩

theorem keepsNull_tagged : tagged.KeepsNull := fun _ => ⟨[0x4E], rfl, rfl⟩

end Codec

namespace Cache

variable {υ ε : Type} {κ τ : Kind} {c : Cache Base} {o : Options} {xs : List κ} {keyOf : κ → Key}
  {keys : List Key} {w : World Base υ} {s : Scene Base} {results : List (Option τ)}

/-! ## What the writes of a read leave -/

end Cache

end CacheAside

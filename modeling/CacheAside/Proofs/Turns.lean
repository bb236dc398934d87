import CacheAside.Proofs.Matching

/-!
# Turns

What happens to a cache one after the other: calls for objects and results of any kinds, the making
of queued writes, and whatever others do to the store in between.
-/

namespace CacheAside

inductive Turn (σ υ ε ρ : Type) where
  | call {κ τ : Kind} (r : Request σ υ ε ρ κ τ)
  /-- The queued writes are made. -/
  | drain
  /-- Others change the contents of the store and move its clock. -/
  | meanwhile (change : σ → Int64 → σ × Int64)

/-- What its data source has been asked by a call, and what it has answered itself. -/
structure Account (ε ρ : Type) where
  {object result : Kind}
  asked : List (List object)
  answer : Except (Failure ε) (Reply ρ result)

def World.meanwhile {σ υ : Type} (w : World σ υ) (change : σ → Int64 → σ × Int64) : World σ υ :=
  let (contents, now) := change w.scene.contents w.scene.now
  { w with scene := { w.scene with contents, now } }

namespace Request

variable {σ υ ε ρ : Type} {κ τ : Kind}

/-- All computations of a request are as stated. -/
def Sources (P : ∀ {α : Type}, Computation σ υ ε α → Prop) : Request σ υ ε ρ κ τ → Prop
  | .read _ _ compute | .write _ _ compute | .writeByResult _ compute
  | .invalidateByResult _ compute => P compute
  | .readMany _ _ source => ∀ asked, P (source asked)
  | .writeMany _ _ compute | .writeManyByResult _ compute
  | .invalidateManyByResult _ compute => P compute
  | .invalidateAround _ _ _ compute | .invalidateManyAround _ _ _ compute => P compute
  | .invalidate .. | .invalidateMany .. => True

variable {P : ∀ {α : Type}, Computation σ υ ε α → Prop} {r : Request σ υ ε ρ κ τ}

theorem Sources.relates (h : r.Sources P) {R : World σ υ → World σ υ → Prop}
    {T : List τ → World σ υ → World σ υ → Prop}
    (hP : ∀ {α : Type} (values : α → List τ) (compute : Computation σ υ ε α), P compute →
      compute.Relates R T values) : r.Relates R T := by
  cases r with
  | readMany o xs source => exact fun asked => hP _ _ (h asked)
  | invalidate | invalidateMany => trivial
  | read | write | writeMany | writeByResult | writeManyByResult | invalidateAround
  | invalidateManyAround | invalidateByResult | invalidateManyByResult => exact hP _ _ h

theorem Sources.noting (h : r.Sources P)
    {Q : ∀ {α : Type}, Computation σ (υ × List (List κ)) ε α → Prop}
    (hPQ : ∀ {α : Type} (compute : Computation σ υ ε α) (asked : List κ), P compute →
      Q (compute.noting asked)) : r.noting.Sources Q := by
  cases r with
  | readMany o xs source => exact fun asked => hPQ _ asked (h asked)
  | invalidate | invalidateMany => trivial
  | read | write | writeMany | writeByResult | writeManyByResult | invalidateAround
  | invalidateManyAround | invalidateByResult | invalidateManyByResult => exact hPQ _ [] h

end Request

namespace Turn

variable {σ υ ε ρ : Type}

def run (c : Cache σ) : Turn σ υ ε ρ → World σ υ → Option (Account ε ρ) × World σ υ
  | .call r, w => (some ⟨r.questions c w, (r.run c w).1⟩, (r.run c w).2)
  | .drain, w => (none, Cache.drain c.store w)
  | .meanwhile change, w => (none, w.meanwhile change)

/-- Takes turns, and does something behind each. Gives the account of each turn with the world
behind it, and the world at the end. -/
def runAll (c : Cache σ) (settle : World σ υ → World σ υ) : List (Turn σ υ ε ρ) → World σ υ →
    List (Option (Account ε ρ) × World σ υ) × World σ υ
  | [], w => ([], w)
  | turn :: turns, w =>
    let (account, w) := turn.run c w
    let (later, final) := runAll c settle turns (settle w)
    ((account, settle w) :: later, final)

/-- The same turn, with another time to write back. -/
def inMode (mode : WriteBack) : Turn σ υ ε ρ → Turn σ υ ε ρ
  | .call r => .call (r.inMode mode)
  | .drain => .drain
  | .meanwhile change => .meanwhile change

/-- All data sources are as stated. -/
def Sources (P : ∀ {α : Type}, Computation σ υ ε α → Prop) : Turn σ υ ε ρ → Prop
  | .call r => r.Sources P
  | .drain | .meanwhile _ => True

end Turn

end CacheAside

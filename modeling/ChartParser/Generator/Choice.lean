/-!
# Making choices

A chooser picks one of several alternatives by number and may change a state
of its own, so that any way of choosing, random or not, is one. The one given
here draws 32-bit values, first from a script and then from a linear
congruential generator, and turns a value into a choice without bias: the
value is scaled by multiplication, and values whose low half falls outside a
zone divisible among the alternatives are drawn again.
-/
namespace ChartParser

structure Chooser (σ : Type) where
  pick : (n : Nat) → 0 < n → σ → Fin n × σ

structure RandomSource where
  script : List UInt32
  state : UInt64
  /-- How many values were drawn so far. -/
  drawn : Nat := 0
  deriving Inhabited

namespace RandomSource

def next (source : RandomSource) : UInt32 × RandomSource :=
  match source.script with
  | value :: rest => (value, { source with script := rest, drawn := source.drawn + 1 })
  | [] =>
    let state := source.state * 6364136223846793005 + 1442695040888963407
    ((state >>> 32).toUInt32, { source with state, drawn := source.drawn + 1 })

/-- The greatest low half that is accepted when there are `n` alternatives: `n` is shifted
up to the width of a value, and the zone ends just below. -/
def zone (n : Nat) : Nat := (n <<< (31 - n.log2)) - 1

def scale (n : Nat) (value : UInt32) : Nat := value.toNat * n

theorem scale_lt {n : Nat} (hn : 0 < n) (value : UInt32) :
    scale n value / UInt32.size < n := by
  rw [Nat.div_lt_iff_lt_mul (by decide), Nat.mul_comm n]
  exact Nat.mul_lt_mul_of_pos_right value.toNat_lt_size hn

/-- Draws until a value is accepted, or for as often as is allowed. -/
def below (n : Nat) (hn : 0 < n) : Nat → RandomSource → Fin n × RandomSource
  | 0, source => (⟨0, hn⟩, source)
  | limit + 1, source =>
    let (value, source) := source.next
    if scale n value % UInt32.size ≤ zone n then
      (⟨scale n value / UInt32.size, scale_lt hn value⟩, source)
    else below n hn limit source

/-- After the script the state runs through all of its values, one of which yields zero, and
zero is always accepted. The limit is therefore not met. -/
def chooser : Chooser RandomSource where
  pick n hn source := below n hn (source.script.length + UInt64.size) source

end RandomSource

end ChartParser

import ChartParser.Derivation
import ChartParser.Generator.Choice
import ChartParser.Generator.Height

/-!
# Generating words

A word is generated by expanding the start symbol from the top, a chooser
picking the rule of each node. Only rules that lead to a finite derivation are
offered, and from the depth limit on only those that lead to a lowest one.
There the heights go down from node to child, and above the limit the depth
goes up, so every expansion ends.
-/
namespace ChartParser

inductive GenerationFault where
  /-- The symbol to start from heads no rule. -/
  | undefinedNonTerminal (name : String)
  /-- No derivation from this symbol is finite. -/
  | unproductive (name : String)
  deriving DecidableEq

def GenerationFault.message : GenerationFault → String
  | undefinedNonTerminal name => "No definition for nonterminal `" ++ name ++ "`"
  | unproductive name => "Nonterminal `" ++ name ++ "` never derives a finite word"

instance : ToString GenerationFault := ⟨GenerationFault.message⟩

/-- Runs a stateful step on each member of a list, from left to right. -/
def threadThrough {α β σ ε : Type} :
    (xs : List α) → ((x : α) → x ∈ xs → σ → Except ε (β × σ)) → σ → Except ε (List β × σ)
  | [], _, state => .ok ([], state)
  | x :: xs, step, state =>
    match step x List.mem_cons_self state with
    | .error e => .error e
    | .ok (y, state) =>
      match threadThrough xs (fun z hz => step z (List.mem_cons_of_mem x hz)) state with
      | .error e => .error e
      | .ok (ys, state) => .ok (y :: ys, state)

namespace Grammar

/-- The rules offered for a symbol of height `best` at the given depth. -/
def candidates (g : Grammar) (h : Heights) (maxDepth depth : Nat) (s : Symbol) (best : Nat) :
    List Rule :=
  (g.rulesFor s).filter fun r =>
    match g.ruleHeight? h r with
    | some height => depth < maxDepth || height == best
    | none => false

/-- Below an offered rule either the limit comes nearer or the height goes down. -/
theorem candidates_decrease {g : Grammar} {h : Heights} {maxDepth depth : Nat} {s : Symbol}
    {best : Nat} (hbest : g.symbolHeight? h s = some best) {r : Rule}
    (hr : r ∈ g.candidates h maxDepth depth s best) {x : Symbol} (hx : x ∈ r.rhs) :
    Prod.Lex (· < ·) (· < ·) (maxDepth - (depth + 1), (g.symbolHeight? h x).getD 0)
      (maxDepth - depth, (g.symbolHeight? h s).getD 0) := by
  by_cases hd : depth < maxDepth
  · exact Prod.Lex.left _ _ (by omega)
  · obtain ⟨_, hr⟩ := List.mem_filter.mp hr
    cases hh : g.ruleHeight? h r with
    | none => simp [hh] at hr
    | some height =>
      simp only [hh, hd, decide_false, Bool.false_or, beq_iff_eq] at hr
      obtain ⟨k, hk, hlt⟩ := symbolHeight?_lt_ruleHeight? hh hx
      have hsame : maxDepth - (depth + 1) = maxDepth - depth := by omega
      rw [hsame]
      apply Prod.Lex.right
      simp only [hk, hbest, Option.getD_some]
      omega

/-- A derivation from a symbol that stands at the given depth. -/
def expand {σ : Type} (c : Chooser σ) (g : Grammar) (h : Heights) (maxDepth : Nat)
    (s : Symbol) (depth : Nat) (state : σ) : Except GenerationFault (Derivation × σ) :=
  if g.isNonTerminal s then
    match hbest : g.symbolHeight? h s with
    | none => .error (.unproductive s.name)
    | some best =>
      let offered := g.candidates h maxDepth depth s best
      if hpos : 0 < offered.length then
        let (i, state) := c.pick offered.length hpos state
        match threadThrough offered[i].rhs
            (fun x _ state => expand c g h maxDepth x (depth + 1) state) state with
        | .error fault => .error fault
        | .ok (children, state) => .ok (.node s children, state)
      else .error (.unproductive s.name)
  else .ok (.terminal s, state)
termination_by (maxDepth - depth, (g.symbolHeight? h s).getD 0)
decreasing_by
  exact candidates_decrease hbest (List.getElem_mem _) ‹_›

/-- A derivation from any symbol that heads a rule. -/
def deriveFrom {σ : Type} (c : Chooser σ) (g : Grammar) (start : Symbol) (maxDepth : Nat)
    (state : σ) : Except GenerationFault (Derivation × σ) :=
  if g.isNonTerminal start then expand c g g.heights maxDepth start 0 state
  else .error (.undefinedNonTerminal start.name)

def generateFrom {σ : Type} (c : Chooser σ) (g : Grammar) (start : Symbol) (maxDepth : Nat)
    (state : σ) : Except GenerationFault (List String × σ) :=
  (deriveFrom c g start maxDepth state).map fun (d, state) => (d.word, state)

/-- A word of the grammar. -/
def generate {σ : Type} (c : Chooser σ) (g : Grammar) (maxDepth : Nat) (state : σ) :
    Except GenerationFault (List String × σ) :=
  generateFrom c g g.start maxDepth state

/-- Several words, the choices for one continuing after those for the one before. -/
def generateMany {σ : Type} (c : Chooser σ) (g : Grammar) (maxDepth : Nat) :
    Nat → σ → Except GenerationFault (List (List String) × σ)
  | 0, state => .ok ([], state)
  | count + 1, state =>
    match g.generate c maxDepth state with
    | .error fault => .error fault
    | .ok (word, state) =>
      match generateMany c g maxDepth count state with
      | .error fault => .error fault
      | .ok (words, state) => .ok (word :: words, state)

end Grammar

end ChartParser

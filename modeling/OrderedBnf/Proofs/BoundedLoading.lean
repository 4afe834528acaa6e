import OrderedBnf.Grammar.Bounded
import OrderedBnf.Proofs.PrintedRules

/-! A loader on a stack of limited size: it comes to the same as one without limits or runs out of
room, and printed rules need a known number of calls. -/
namespace OrderedBnf
open MetaGrammar (Word)

section Curbing
variable {ε α β : Type} {enough enough' : Prop}

/-- What comes of limited room: the same outcome, or none, which does not happen where the room is
enough. -/
def Curbed (enough : Prop) (curbed : Except (Option ε) α) (outcome : Except ε α) : Prop :=
  curbed = outcome.mapError some ∨ curbed = .error none ∧ ¬ enough

theorem Curbed.refl (outcome : Except ε α) : Curbed enough (outcome.mapError some) outcome :=
  .inl rfl

theorem Curbed.imp {curbed : Except (Option ε) α} {outcome : Except ε α}
    (h : Curbed enough curbed outcome) (himp : enough' → enough) : Curbed enough' curbed outcome :=
  Or.imp_right (And.imp_right (mt himp)) h

theorem mapError_some_ne (outcome : Except ε α) : outcome.mapError some ≠ .error none := by
  cases outcome <;> exact nofun

/-- What comes afterwards without limits does not run out of room. -/
theorem bind_eq_none_iff (curbed : Except (Option ε) α) (next : α → Except ε β) :
    (curbed >>= fun a => (next a).mapError some) = .error none ↔ curbed = .error none := by
  cases curbed with
  | error error => exact ⟨fun h => congrArg _ (Except.error.inj h), fun h => h ▸ rfl⟩
  | ok a => exact iff_of_false (mapError_some_ne _) nofun

/-- Steps with limited room may follow one another. -/
theorem Curbed.bind {curbed : Except (Option ε) α} {outcome : Except ε α}
    {next : α → Except (Option ε) β} {next' : α → Except ε β} (h : Curbed enough curbed outcome)
    (hnext : ∀ a, outcome = .ok a → Curbed enough (next a) (next' a)) :
    Curbed enough (curbed >>= next) (outcome >>= next') := by
  rcases h with rfl | ⟨rfl, he⟩
  · cases outcome with
    | error error => exact .inl rfl
    | ok a => exact hnext a rfl
  · exact .inr ⟨rfl, he⟩

end Curbing

namespace Rule
variable {text : Text} {s : Stretch} {room : Nat}

end Rule

/-- A text that compiles, with this number of calls open at a time and not with fewer. -/
structure Needs (calls : Nat) (chars : Text) : Prop where
  enough {text : Text} {n room : Nat} : calls ≤ room →
    ∃ rule, Rule.compileStretchWithin text room ⟨n, chars⟩ = .ok rule
  short {text : Text} {n room : Nat} : room < calls →
    Rule.compileStretchWithin text room ⟨n, chars⟩ = .error none

section Counting
variable {calls calls' : Nat} {word text : Text}

theorem Terminal.head {form : Leaf} (h : Terminal form word) :
    ∃ c rest, word = c :: rest ∧ closingOf? c = none := by
  cases h with
  | literal hmark => exact ⟨_, _, rfl, closingOf?_quote hmark⟩
  | reserved h =>
    obtain ⟨c, rest, hword, hopening, -⟩ := head_of_identifier (reserved_identifier h)
    exact ⟨c, rest, hword, hopening⟩
  | reference h =>
    obtain ⟨c, rest, hword, hopening, -⟩ := head_of_identifier h
    exact ⟨c, rest, hword, hopening⟩

/-- The first call takes one place and leaves the others. -/
theorem Needs.succ
    (enough : ∀ source n room, calls ≤ room →
      ∃ rule, Rule.compileStretchWithin source (room + 1) ⟨n, text⟩ = .ok rule)
    (short : ∀ source n room, room < calls →
      Rule.compileStretchWithin source (room + 1) ⟨n, text⟩ = .error none) :
    Needs (calls + 1) text where
  enough {source n room} hroom := by
    obtain ⟨room, rfl⟩ := Nat.exists_eq_succ_of_ne_zero (Nat.ne_of_gt (Nat.lt_of_lt_of_le
      (Nat.succ_pos _) hroom))
    exact enough source n room (Nat.le_of_succ_le_succ hroom)
  short {source n room} hroom := by
    cases room with
    | zero => rfl
    | succ room => exact short source n room (Nat.lt_of_succ_lt_succ hroom)

/-- The sides of a cut are compiled one after the other. -/
theorem Needs.cut {operator : Operator} {e : Expression} {es : List Expression}
    {between rest : Text}
    (hfirst : Needs calls text) (hrest : Needs calls' rest)
    (hlaid : Laid Terminal operator.tighter [e] text) (hb : operator.Between between)
    (hlaid' : Laid Terminal operator.level es rest) :
    Needs (max calls calls' + 1) (text ++ between ++ rest) := by
  have hstep (source : Text) (n room : Nat) : ∃ cut, Rule.compileStretchWithin source (room + 1)
      ⟨n, text ++ between ++ rest⟩ = (do
        let left ← Rule.compileStretchWithin source room ⟨n, text⟩
        let right ← Rule.compileStretchWithin source room ⟨n + (text ++ between).length, rest⟩
        return Rule.join source cut left right) := by
    obtain ⟨offset, hcut, hbefore, hafter⟩ := @cut_between n _ _ _ _ hlaid.passes hlaid.firm hb
      hlaid'.passes hlaid'.firm
    exact ⟨operator.cut offset, by rw [Rule.compileStretchWithin, hcut, ← hbefore, ← hafter]⟩
  refine .succ (fun source n room hroom => ?_) fun source n room hroom => ?_
  all_goals obtain ⟨cut, hcut⟩ := hstep source n room
  · obtain ⟨left, hleft⟩ := @hfirst.enough source n room (by omega)
    obtain ⟨right, hright⟩ := @hrest.enough source (n + (text ++ between).length) room (by omega)
    exact ⟨_, by rw [hcut, hleft, hright]; rfl⟩
  · rw [hcut]
    by_cases hl : room < calls
    · rw [hfirst.short hl]
      rfl
    · obtain ⟨left, hleft⟩ := @hfirst.enough source n room (by omega)
      rw [hleft, hrest.short (by omega)]
      rfl

/-- A bracket needs one more call than what it encloses. -/
theorem Needs.enclose {opening closing : Char} {e e' : Expression} {before after : Text}
    (h : Needs calls text) (henc : Encloses opening closing e e') (hbefore : Blanks before)
    (hlaid : Laid Terminal .choice [e] text) (hafter : Blanks after) :
    Needs (calls + 1) (opening :: (before ++ text ++ after ++ [closing])) := by
  obtain ⟨ho, hc⟩ := henc.brackets
  have hstep (source : Text) (n room : Nat) : Rule.compileStretchWithin source (room + 1)
      ⟨n, opening :: (before ++ text ++ after ++ [closing])⟩ = (do
        let body ← Rule.compileStretchWithin source room ⟨n + 1 + before.length, text⟩
        return Rule.bracket source ⟨n, opening :: (before ++ text ++ after ++ [closing])⟩ opening
          body) := by
    have hunseen := unseen_of_enclosed ho hc fun depth hd =>
      ((hbefore.scans depth).append (hlaid.passes depth hd)).append (hafter.scans depth)
    have hinner : (Stretch.mk n (opening :: (before ++ text ++ after ++ [closing]))).inner.trim =
        ⟨n + 1 + before.length, text⟩ := by
      rw [Stretch.inner, List.tail_cons, List.dropLast_concat]
      exact hlaid.firm.trim hbefore hafter (n + 1)
    rw [Rule.compileStretchWithin, hunseen.not_cut, hinner]
    simp [ho, hlaid.firm.ne_nil]
  refine .succ (fun source n room hroom => ?_) fun source n room hroom => ?_
  · obtain ⟨body, hbody⟩ := @h.enough source (n + 1 + before.length) room hroom
    exact ⟨_, by rw [hstep, hbody]; rfl⟩
  · rw [hstep, h.short hroom]
    rfl

end Counting

namespace Expression
variable {operator : Operator} {e : Expression} {es : List Expression}

mutual
/-- The calls that are open at a time while a printed expression is compiled. -/
def openCalls : Expression → Nat
  | leaf .. => 1
  | several operator operands => openCallsOfOperands operator operands
  | optional body | repetition body => openCalls body + 1

def openCallsOfOperands (operator : Operator) : List Expression → Nat
  | [] => 0
  | [e] => if isLoose operator e then openCalls e + 1 else openCalls e
  | e :: rest =>
    max (if isLoose operator e then openCalls e + 1 else openCalls e)
      (openCallsOfOperands operator rest) + 1
end

end Expression

def Definition.openCalls (d : Definition) : Nat := d.body.elim 0 Expression.openCalls

namespace Grammar
variable {grammar : Grammar} {block : Block} {blocks : List Block} {room : Nat}

end Grammar

section Documents
variable {d : Definition} {ds : List Definition} {room : Nat}

end Documents
end OrderedBnf

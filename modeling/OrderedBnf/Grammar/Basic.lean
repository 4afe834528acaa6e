import OrderedBnf.Text.Letter
import OrderedBnf.Rule.Basic

/-! Grammars: rules by name. -/
namespace OrderedBnf

/-- A rule without a body is an extension point: what it matches is up to the reader of the text. -/
structure Entry where
  name : String
  body : Option Rule
  line : Option Nat
  deriving DecidableEq, Repr

/-- Names are in the order in which they were first given, each once. -/
structure Grammar where
  entries : List Entry
  distinct : (entries.map Entry.name).Nodup

namespace Grammar

def empty : Grammar := ⟨[], List.nodup_nil⟩

def names (grammar : Grammar) : List String := grammar.entries.map Entry.name

def find? (grammar : Grammar) (name : String) : Option Entry :=
  grammar.entries.find? (·.name = name)

def contains (grammar : Grammar) (name : String) : Bool := (grammar.find? name).isSome

/-- The body of a rule: `none` for an unknown name, `some none` for an extension point. -/
def body? (grammar : Grammar) (name : String) : Option (Option Rule) :=
  (grammar.find? name).map Entry.body

def line? (grammar : Grammar) (name : String) : Option Nat := (grammar.find? name).bind Entry.line

def isExtension (grammar : Grammar) (name : String) : Bool := grammar.body? name = some none

def bodies (grammar : Grammar) : List Rule := grammar.entries.filterMap Entry.body

private def replace (entry : Entry) (entries : List Entry) : List Entry :=
  entries.map fun e => if e.name = entry.name then entry else e

private theorem names_replace (entry : Entry) (entries : List Entry) :
    (replace entry entries).map Entry.name = entries.map Entry.name := by
  simp only [replace, List.map_map]
  apply List.map_congr_left
  intro e _
  simp only [Function.comp]
  split <;> simp_all

/-- Gives a rule a body. A name keeps its first place and takes its last body. -/
def put (grammar : Grammar) (name : String) (body : Option Rule) (line : Option Nat) : Grammar :=
  let entry := ⟨name, body.map (·.asBodyOf name), line⟩
  if h : name ∈ grammar.names then
    ⟨replace entry grammar.entries, by rw [names_replace]; exact grammar.distinct⟩
  else
    ⟨grammar.entries ++ [entry], by
      have := grammar.distinct
      simp only [names] at h
      simp_all [List.nodup_append]
      exact fun a ha he => h a ha (he ▸ rfl)⟩

def ofList (rules : List (String × Option Rule)) : Grammar :=
  rules.foldl (fun grammar rule => grammar.put rule.1 rule.2 none) empty

def mentions (grammar : Grammar) : List String := grammar.bodies.flatMap Rule.mentions

def missing (grammar : Grammar) : List String :=
  (grammar.mentions.filter fun name => !grammar.contains name).eraseDups

/-- The literals that begin with a letter: grammars spell out their reserved words. -/
def keywords (grammar : Grammar) : List Text :=
  let literals := grammar.bodies.flatMap fun body => body.nodes.filterMap fun rule =>
    if rule.kind = .token then some rule.literal else none
  (literals.filter fun word => word.head?.any isLetter).eraseDups

end Grammar
end OrderedBnf

import Cascade.Proofs.Resolution.Interference

/-! # Resolution after other resolutions

A resolver keeps the modules and the plugins that it has loaded, also when it fails
in the middle of a configuration. What it has kept is what loading gives again, so
a configuration has the elements, or the failure, that it has at first. -/
namespace Cascade

open Resolution

/-- The sessions that using a resolver leads to. -/
inductive Resolver.Reached (r : Resolver) (w : World) : Session → Prop where
  | start : Reached r w (Session.start w)
  | resolve {s : Session} (config : Value) (name : String) (file : Option Path) :
      Reached r w s → Reached r w ((r.resolve config name file).runFrom s).2
  | resolveFile {s : Session} (file : Path) :
      Reached r w s → Reached r w ((r.resolveFile file).runFrom s).2

namespace Resolver

variable {r : Resolver} {w : World} {s : Session}

theorem Reached.coherent (hw : w.ModulesApart) (h : r.Reached w s) : s.Coherent r w := by
  induction h with
  | start => exact Session.coherent_start r w
  | resolve config name file _ ih => exact (resolve_settled hw config name file _ ih).1
  | resolveFile file _ ih => exact (resolveFile_settled hw file _ ih).1

def pluginWorld : World where
  here := ["work"]
  entries := [(["work", "eslint_plugin_p.py"], .script (.defines
    [("configs", .mapping [(.str "c", .mapping [ruleOf "curly"])])]))]

/-- An override without patterns, after a configuration of a plugin. -/
def failingConfig : Value :=
  .mapping [(.str "extends", .str "plugin:p/c"), (.str "overrides", .list [.mapping []])]

/-- The message of a failure, or the names of elements with the rules that they set. -/
def outline : Except Failure (List Element) → Option String ⊕ List (String × List String)
  | .error e => .inl e.message?
  | .ok es => .inr (es.map fun e => (e.name, match Entries.field? e.node.data "rules" with
    | some (.mapping rules) => rules.map fun rule => rule.1.text
    | _ => []))

end Resolver

end Cascade

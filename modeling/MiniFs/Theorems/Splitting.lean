import MiniFs.Theorems.Resolution

/-! # Splitting a path

`rm_name` cuts a path at its last slash, unless that is the slash that the path starts with. What is left then leads where
the components before the last one lead. -/

namespace MiniFs
open Memory

/-- `rm_name` returns the last component of the path and leaves the text before it. If the only slash is the leading one it
    leaves a path to the root. So what is left resolves to where the components before the last one lead. -/
def SplitsName (path : Str) : Prop :=
  ∃ name rest, rmName path = some (name, rest) ∧ (components path).getLast? = some name ∧
    (¬(path.head? = some slash ∧ slash ∉ path.tail) → rest = joined (components path).dropLast) ∧
    ∀ mem s pwd, (resolve mem s pwd rest).map Prod.fst =
      (s.trace mem (startNode pwd path) (startPath path).dropLast).map Prod.fst

theorem map_resolve {mem : Zone → Str → Nat → Byte} {s : Store} {pwd : PathT} {path : Str} :
    (resolve mem s pwd path).map Prod.fst = (s.trace mem (startNode pwd path) (startPath path)).map Prod.fst := by
  rw [resolve_eq, Option.map_map]
  rfl

theorem splitsName_append {before name : Str} (hne : before ≠ []) (hname : slash ∉ name) :
    SplitsName (before ++ slash :: name) := by
  have hcs : components (before ++ slash :: name) = components before ++ [name] := by
    rw [components_append, components_single hname]
  refine ⟨name, before, rmName_append hne hname, ?_, fun _ => ?_, fun mem s pwd => ?_⟩
  · rw [hcs, List.getLast?_concat]
  · rw [hcs, List.dropLast_concat, joined_components]
  · have hnode : startNode pwd (before ++ slash :: name) = startNode pwd before := by
      unfold startNode
      rw [List.head?_append_of_ne_nil _ hne]
    rw [map_resolve, hnode, startPath_append hne, components_single hname, List.dropLast_concat]

theorem splitsName_single {path : Str} (hne : path ≠ []) (h : slash ∉ path) : SplitsName path := by
  obtain ⟨c, rest, rfl⟩ := List.exists_cons_of_ne_nil hne
  have hhead : ¬(c :: rest).head? = some slash := fun heq => h (List.mem_of_mem_head? heq)
  refine ⟨c :: rest, [], rmName_of_not_mem fun hin => h (List.mem_cons_of_mem c hin), ?_, fun _ => ?_, fun mem s pwd => ?_⟩
  · rw [components_single h]
    rfl
  · rw [components_single h]
    rfl
  · rw [map_resolve]
    unfold startNode startPath
    rw [if_neg hhead, if_neg hhead, components_single h]
    rfl

/-- The leading slash stays in the name that `rm_name` returns. -/
theorem not_splitsName_slash {name : Str} (h : slash ∉ name) : ¬SplitsName (slash :: name) := by
  rintro ⟨name', rest, hrm, hlast, -⟩
  rw [rmName_of_not_mem h] at hrm
  obtain ⟨rfl, -⟩ := Prod.mk.inj (Option.some.inj hrm)
  have hcs : components (slash :: name) = [[], name] := by
    rw [← List.nil_append (slash :: name), components_append, components_single h, components_single List.not_mem_nil]
    rfl
  rw [hcs] at hlast
  have hself : name = slash :: name := Option.some.inj hlast
  exact List.cons_ne_self slash name hself.symm

/-- `rm_name` splits every path right but one whose only slash is the leading one. -/
theorem splitsName_iff (path : Str) (hne : path ≠ []) : SplitsName path ↔ ¬(path.head? = some slash ∧ slash ∉ path.tail) := by
  constructor
  · rintro hsplit ⟨hhead, htail⟩
    obtain ⟨c, rest, rfl⟩ := List.exists_cons_of_ne_nil hne
    obtain rfl : c = slash := Option.some.inj hhead
    exact not_splitsName_slash htail hsplit
  · intro hno
    by_cases hmem : slash ∈ path
    · obtain ⟨before, name, rfl, hname⟩ := exists_last_slash hmem
      refine splitsName_append (fun hnil => hno ?_) hname
      subst hnil
      exact ⟨rfl, hname⟩
    · exact splitsName_single hne hmem

theorem splitsName_iff_sub : SplitsName (lit "/a//b") ↔
    ¬((lit "/a//b").head? = some slash ∧ slash ∉ (lit "/a//b").tail) := splitsName_iff (lit "/a//b") (by decide)

theorem not_splitsName_root : ¬∀ path : Str, path ≠ [] → SplitsName path := fun hall =>
  not_splitsName_slash (by decide : slash ∉ lit "x") (hall (slash :: lit "x") (by decide))

end MiniFs

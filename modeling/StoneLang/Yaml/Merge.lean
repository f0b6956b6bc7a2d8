/-
  Merged mappings.

  A mapping may have an entry with the plain key `<<`, whose value is a mapping or a sequence of
  mappings.  Their entries count as entries of the mapping itself, except where it, or one of them that
  comes earlier, has an entry of the same name.

  `Yaml.overlays` lists the mappings that make up a mapping, the one that counts first at the head.
-/
import StoneLang.Yaml.Basic

namespace StoneLang.Yaml

def isMergeKey : Yaml → Bool
  | .scalar _ quoted value => !quoted && value == text "<<"
  | _ => false

def hasRepeats : List (Yaml × Yaml) → Bool
  | [] => false
  | (key, _) :: rest => (rest.any fun entry => key.sameKey entry.1) || hasRepeats rest

/-- The mappings that make up a mapping, by their entries: first its own, then the merged ones, each
with what it merges itself.  A mapping with repeated keys merges nothing.  There is no answer if
something else than mappings is merged. -/
def overlays : Yaml → Option (List (List (Yaml × Yaml)))
  | .mapping _ entries =>
    if hasRepeats entries then some [entries]
    else
      match _h : entries.find? fun entry => entry.1.isMergeKey with
      | none => some [entries]
      | some (_, .sequence _ items) =>
        let merged? := items.attach.mapM fun item => overlays item.val
        merged?.map fun merged => entries :: merged.flatten
      | some (_, value) => (overlays value).map (entries :: ·)
  | _ => none
termination_by y => sizeOf y
decreasing_by
  · have hentry := List.sizeOf_lt_of_mem (List.mem_of_find?_eq_some _h)
    have hitem := List.sizeOf_lt_of_mem item.property
    simp only [Prod.mk.sizeOf_spec, Yaml.sequence.sizeOf_spec] at hentry
    simp only [Yaml.mapping.sizeOf_spec]
    omega
  · have hentry := List.sizeOf_lt_of_mem (List.mem_of_find?_eq_some _h)
    simp only [Prod.mk.sizeOf_spec] at hentry
    simp only [Yaml.mapping.sizeOf_spec]
    omega

end StoneLang.Yaml

/-
  TinyScript.Store.Collect — when scopes are freed.

  A scope that is released is freed at once if nobody holds its lease, and retained otherwise.
  Retained scopes may keep each other through the functions bound in them, so a collection looks
  for those that nothing else can reach. It takes the retained scopes and all they refer to as a
  graph; a node that is referred to more often than from within the graph is held from outside.
  What cannot be reached from such a node, or from the ancestors of a scope that still runs, goes.
-/

import Std.Data.TreeSet
import TinyScript.Store.Settle

namespace TinyScript

abbrev RefSet := Std.TreeSet Ref

namespace Store

/-- Empties the place of a scope for the next one. -/
def freeScope (s : Store) (id : ScopeId) : Store :=
  let s := s.changeScope id (fun scope => { Scope.vacant with kind := scope.kind }) []
    (s.scope id).refs (.replace _ [])
  { s with free := id :: s.free }

/-- The retained scopes of a collection by the lease that someone holds. -/
abbrev Candidates := Std.TreeMap Ref ScopeId

def candidatesOf (s : Store) (ids : List ScopeId) : Candidates :=
  ids.foldl
    (fun c id => match s.liveLease? id with
      | some lease => c.insert lease id
      | none => c)
    ∅

/-- What a node of the graph refers to. A candidate's lease stands for its scope too. -/
def successors (s : Store) (candidates : Candidates) (r : Ref) : List Ref :=
  let links := ((s.cell? r).map Cell.links).getD []
  match candidates[r]? with
  | some id => (s.scope id).refs ++ links
  | none => links

/-- All that the nodes in `todo` reach, added to what was `seen`. -/
def reach (next : Ref → List Ref) : Nat → List Ref → RefSet → RefSet
  | n + 1, r :: todo, seen =>
    if seen.contains r then reach next n todo seen
    else reach next n (next r ++ todo) (seen.insert r)
  | _, _, seen => seen

/-- The number of references between cells and from scopes: more are not followed. -/
def edgeCount (s : Store) : Nat :=
  let n := s.scopes.foldl (fun n scope => n + scope.refs.length) 0
  s.cells.foldl (fun n _ cell => n + cell.refs.length) n

/-- The references to each node from within the graph. -/
def inner (next : Ref → List Ref) (nodes : RefSet) : Counts :=
  nodes.foldl (fun counts r => counts.addAll (next r)) ∅

/-- The scopes above one that is not released. -/
def ancestors (s : Store) : Std.TreeSet ScopeId :=
  s.scopes.foldl
    (fun above scope =>
      if scope.released then above
      else (s.chainFrom s.scopes.size scope.parent).foldl (fun above id => above.insert id) above)
    ∅

/-- What a collection found: the candidates to keep, the candidates to free, and the nodes that
    nothing reaches. -/
structure Verdict where
  kept : List ScopeId
  lost : List ScopeId
  unreached : List Ref

/-- Decides about candidates, in their order, from how often each cell of a settled store is
    referred to. Retained scopes whose lease nobody holds are already freed, but were counted. -/
def judge (s : Store) (count : Ref → Nat) (ids : List ScopeId) : Verdict :=
  let candidates := s.candidatesOf ids
  let next := s.successors candidates
  let leases := ids.filterMap s.liveLease?
  let bound := leases.length + s.edgeCount
  let nodes := reach next bound leases ∅
  let inside := inner next nodes
  let outer := nodes.toList.filter fun r => inside.of r < count r
  let above := s.ancestors
  let anchors := ids.filterMap fun id => if above.contains id then s.liveLease? id else none
  let roots := outer ++ anchors
  let reached := reach next (roots.length + s.edgeCount) roots ∅
  let stays := fun id => (s.liveLease? id).any reached.contains
  { kept := ids.filter stays
    lost := ids.filter fun id => !stays id
    unreached := nodes.toList.filter fun r => !reached.contains r }

def emptyCell (s : Store) (r : Ref) : Store :=
  match h : s.cell? r with
  | some c =>
    s.changeCell r Cell.emptied c.emptied.refs c.refs (by
      intro d hd
      cases h.symm.trans hd
      exact .replace _ _)
  | none => s

/-- Frees the retained scopes whose lease nobody holds, then those that nothing outside of them
    reaches. Arrays and objects that only such scopes reached are emptied. -/
def collect (s : Store) (held : List Ref) : Store :=
  let s := s.settle held
  let inStore := s.counts
  let outside := Counts.addAll ∅ (s.globalLease :: held)
  let (candidates, gone) := s.retained.toList.partition fun id => (s.liveLease? id).isSome
  let s := gone.foldl freeScope s
  let verdict := s.judge (fun r => inStore.of r + outside.of r) candidates
  let s := verdict.lost.foldl freeScope s
  let s := verdict.unreached.foldl emptyCell s
  { s with
    retained := verdict.kept.toArray
    limit := max leastLimit (2 * verdict.kept.length) }

/-- Retains a scope that is no longer run in. -/
def retire (s : Store) (id : ScopeId) : Store :=
  let s := s.markScope id (fun scope => { scope with released := true }) fun _ => rfl
  { s with retained := s.retained.push id }

/-- Frees a scope that had a lease, or retains it while someone holds the lease. -/
def releaseLeased (s : Store) (held : List Ref) (id : ScopeId) : Store :=
  let s := s.settle held
  match s.liveLease? id with
  | none => s.freeScope id
  | some _ =>
    let s := s.retire id
    if s.limit ≤ s.retained.size then s.collect held else s

/-- Says that a scope is no longer run in. -/
@[macro_inline]
def release (s : Store) (held : List Ref) (id : ScopeId) : Store :=
  if (s.scope id).released then s
  else if (s.liveLease? id).isNone then s.freeScope id
  else s.releaseLeased held id

end Store

end TinyScript

-- The two extensions of the index file that hold the state of a merge: the cache-tree and the
-- resolve-undo records are read back as they were written.
import Git.CacheTreeRoundTrip
import Git.ResolveUndo

namespace git

/-- A tree that the code builds comes back with its names, its entry counts and the object
names of its valid nodes; those of invalid nodes are not in the file. The records of entries
that have a mode come back as they were. -/
theorem extensions_read_back :
    (∀ it : cache_tree, BuiltTree it → it.All Ints → ∃ buffer, cache_tree_write it = some buffer ∧
      ∀ behind, cache_tree_read (buffer ++ behind) buffer.length = .node (stored_tree it) behind 0) ∧
    ∀ (istate : index_state) (ces : List cache_entry)
      (undo : List (Bytes × Option resolve_undo_info)), istate.resolve_undo = none →
      (∀ ce ∈ ces, 0 ∉ ce.name ∧ ce.ce_mode ≠ 0) →
      (ces.foldl record_resolve_undo istate).resolve_undo = some undo →
      ∀ behind, resolve_undo_read (resolve_undo_write undo ++ behind)
        (resolve_undo_write undo).length = some undo := by
  refine ⟨?_, ?_⟩
  · intro it h hint
    exact cache_tree_read_write (h.well_named.and hint)
  · intro istate ces undo h hces hundo behind
    exact resolve_undo_read_write (undo_records_after h hces undo hundo) behind

/-! ## What does not come back -/

/-- The environment of a dry run, in which each tree object has the name of all ones. -/
def ones_env : write_tree_env where
  missing_ok := true
  dryrun := true
  hash_tree _ := Vector.replicate 20 1
  writes _ := true

/-- The tree of the file `a`. -/
def tree_of_a : cache_tree := .mk 1 (Vector.replicate 20 1) []

/-- It was made invalid at that file: its object name is still there. -/
def stale_tree : cache_tree := .mk (-1) (Vector.replicate 20 1) []

theorem built_tree_of_a : BuiltTree tree_of_a :=
  @BuiltTree.update ones_env (fun _ => true) (fun _ => true) .new tree_of_a
    [new_entry S_IFREG (Vector.replicate 20 7) [97] 0] true .new (by decide) rfl

theorem ints_of_leaf {n : Int} (sha1 : Sha1) (hlow : -2 ^ 31 ≤ n) (hhigh : n < 2 ^ 31) :
    (cache_tree.mk n sha1 []).All Ints :=
  .mk ⟨hlow, hhigh, by simp⟩ (by simp)

/-- One side of a merge has the file `a`. -/
def merged_a (mode : BitVec 32) : cache_entry :=
  { new_entry S_IFREG (Vector.replicate 20 7) [97] 2 with ce_mode := mode }

theorem extensions_read_back_a :
    (∃ buffer, cache_tree_write tree_of_a = some buffer ∧
      ∀ behind, cache_tree_read (buffer ++ behind) buffer.length =
        .node (stored_tree tree_of_a) behind 0) ∧
    ∃ undo, (record_resolve_undo .empty (merged_a S_IFREG)).resolve_undo = some undo ∧
      resolve_undo_read (resolve_undo_write undo ++ []) (resolve_undo_write undo).length = some undo :=
  ⟨extensions_read_back.1 tree_of_a built_tree_of_a (ints_of_leaf _ (by decide) (by decide)),
    _, rfl, extensions_read_back.2 .empty [merged_a S_IFREG] _ rfl (by decide) rfl []⟩

/-- An invalid node keeps the object name that it had, which is not written; and a record of
an entry without a mode is an error for the reader. -/
theorem extensions_not_read_back :
    (¬ ∀ it : cache_tree, BuiltTree it → it.All Ints → ∃ buffer, cache_tree_write it = some buffer ∧
      ∀ behind, cache_tree_read (buffer ++ behind) buffer.length = .node it behind 0) ∧
    ¬ ∀ (istate : index_state) (ces : List cache_entry)
      (undo : List (Bytes × Option resolve_undo_info)), istate.resolve_undo = none →
      (∀ ce ∈ ces, 0 ∉ ce.name) →
      (ces.foldl record_resolve_undo istate).resolve_undo = some undo →
      ∀ behind, resolve_undo_read (resolve_undo_write undo ++ behind)
        (resolve_undo_write undo).length = some undo := by
  refine ⟨?_, ?_⟩
  · intro h
    have hbuilt : BuiltTree stale_tree := @BuiltTree.invalidate tree_of_a stale_tree [97] built_tree_of_a rfl
    have hints : stale_tree.All Ints := ints_of_leaf _ (by decide) (by decide)
    obtain ⟨buffer, hwrite, hread⟩ := h stale_tree hbuilt hints
    obtain ⟨buffer', hwrite', hread'⟩ := cache_tree_read_write (hbuilt.well_named.and hints)
    obtain rfl : buffer = buffer' := Option.some.inj (hwrite.symm.trans hwrite')
    have hsame := (hread []).symm.trans (hread' [])
    rw [read_result.node.injEq] at hsame
    have hsha1 := congrArg cache_tree.sha1 hsame.1
    exact absurd hsha1 (by decide)
  · intro h
    have hread := h .empty [merged_a 0] _ rfl (by decide) rfl []
    revert hread
    decide

end git

-- `cache_tree_update` makes nodes that agree with the index, and leaves a
-- cache-tree that agrees with it when it fails.
import Git.Coherent

open bsearch

namespace git

/-! ## What an update needs -/

/-- The index as `update_one` can take it. No name is empty or ends in a
slash. No entry is to be removed, but for the placeholders that are left out
anyway. And where the first entry of a directory is a placeholder, all of
them are: the first one decides if the whole directory is left out. -/
structure Fits (cache : List cache_entry) : Prop where
  nonempty : ∀ ce ∈ cache, ce.name ≠ []
  names : ∀ ce ∈ cache, ce.name.getLast? ≠ some SLASH
  going : ∀ ce ∈ cache, ce.has CE_REMOVE = true → ce.has CE_INTENT_TO_ADD = true
  first : ∀ base name ce group, entries_within cache (subdir base name) = ce :: group →
    ce.has CE_INTENT_TO_ADD = true → ∀ e ∈ group, e.has CE_INTENT_TO_ADD = true

/-- A node with a count has its tree object in the database, or a subtree
for each of its directories. -/
inductive Whole (cache : List cache_entry) (objects : object_store) : Bytes → cache_tree → Prop where
  | mk {base : Bytes} {it : cache_tree}
      (here : 0 ≤ it.entry_count → objects it.sha1 = true ∨
        ∀ ce ∈ entries_within cache base, ∀ name,
          before_slash (ce.name.drop base.length) = some name → ∃ sub ∈ it.down, sub.1 = name)
      (down : ∀ sub ∈ it.down, Whole cache objects (subdir base sub.1) sub.2) :
      Whole cache objects base it

section Whole
variable {cache : List cache_entry} {objects objects' : object_store} {base : Bytes}
  {it : cache_tree}

theorem Whole.here (h : Whole cache objects base it) : 0 ≤ it.entry_count →
    objects it.sha1 = true ∨ ∀ ce ∈ entries_within cache base, ∀ name,
      before_slash (ce.name.drop base.length) = some name → ∃ sub ∈ it.down, sub.1 = name := by
  cases h; assumption

theorem Whole.down (h : Whole cache objects base it) :
    ∀ sub ∈ it.down, Whole cache objects (subdir base sub.1) sub.2 := by
  cases h; assumption

theorem Whole.mono (h : Whole cache objects base it)
    (hs : ∀ s, objects s = true → objects' s = true) : Whole cache objects' base it := by
  induction h with
  | mk here _ ih => exact .mk (fun hv => (here hv).imp_left (hs _)) ih

theorem whole_new (cache : List cache_entry) (objects : object_store) (base : Bytes) :
    Whole cache objects base .new := .mk (by simp [cache_tree.new]) (by simp [cache_tree.new])

end Whole

/-! ## The entries of a directory, one name at a time -/

/-- The entries of `base` from some place on: files, and directories with
all their entries together. -/
inductive Level (cache : List cache_entry) (base : Bytes) : List cache_entry → Prop where
  | nil : Level cache base []
  | file {ce : cache_entry} {rest : List cache_entry}
      (hname : before_slash (ce.name.drop base.length) = none) (hrest : Level cache base rest) :
      Level cache base (ce :: rest)
  | dir {name : Bytes} {ce : cache_entry} {group rest : List cache_entry}
      (hname : before_slash (ce.name.drop base.length) = some name)
      (hgroup : entries_within cache (subdir base name) = ce :: group)
      (hout : ∀ e ∈ rest, ¬ Within (subdir base name) e) (hrest : Level cache base rest) :
      Level cache base (ce :: group ++ rest)

theorem Within.subdir_of_slash {base name : Bytes} {ce : cache_entry} (h : Within base ce)
    (hname : before_slash (ce.name.drop base.length) = some name)
    (hlast : ce.name.getLast? ≠ some SLASH) : Within (subdir base name) ce := by
  obtain ⟨-, rest, hrest⟩ := before_slash_some hname
  obtain ⟨r, hr⟩ := h.1
  rw [← hr, List.drop_left] at hrest
  have hn : ce.name = subdir base name ++ rest := by
    unfold subdir
    rw [← hr, hrest]
    simp
  refine ⟨⟨rest, hn.symm⟩, ?_⟩
  rw [hn, List.length_append]
  rcases rest with _ | ⟨c, rest⟩
  · refine absurd ?_ hlast
    rw [hn]
    simp [subdir]
  · simp

theorem Within.up {base name : Bytes} {ce : cache_entry} (h : Within (subdir base name) ce) :
    Within base ce := by
  refine ⟨(prefix_subdir base name).trans h.1, lt_of_le_of_lt ?_ h.2⟩
  exact (prefix_subdir base name).length_le

theorem Within.before_slash {base name : Bytes} {ce : cache_entry}
    (h : Within (subdir base name) ce) (hn : SLASH ∉ name) :
    before_slash (ce.name.drop base.length) = some name := by
  obtain ⟨r, hr⟩ := h.1
  have : ce.name.drop base.length = name ++ SLASH :: r := by
    rw [← hr]
    simp [subdir]
  rw [this, before_slash_append r hn]

/-- Entries in order stand together in their directories. -/
theorem within_contiguous {base : Bytes} {ce : cache_entry} {t : List cache_entry}
    (hs : (ce :: t).Pairwise (fun a b => a.name < b.name)) (hce : Within base ce) :
    ∀ e ∈ t.dropWhile (fun e => decide (Within base e)), ¬ Within base e := by
  induction t with
  | nil => simp
  | cons p t ih =>
    rw [List.dropWhile_cons]
    split
    · exact ih (hs.sublist (List.Sublist.cons_cons _ (List.sublist_cons_self _ _)))
    · rename_i hp
      rw [decide_eq_true_eq] at hp
      intro e he hw
      rcases List.mem_cons.mp he with rfl | he
      · exact hp hw
      · have h1 : ce.name < p.name := List.rel_of_pairwise_cons hs List.mem_cons_self
        have h2 : p.name < e.name := List.rel_of_pairwise_cons hs.of_cons he
        have hb := list_order.le_of_prefix hce.1
        have hpre := list_order.prefix_of_between (hb.trans h1.le) h2.le hw.1
        refine hp ⟨hpre, lt_of_le_of_ne hpre.length_le ?_⟩
        intro hlen
        have := hpre.eq_of_length hlen
        rw [← this] at h1
        exact absurd h1 (not_lt.mpr hb)

theorem level_of_sorted {cache : List cache_entry} {base : Bytes}
    (hs : cache.Pairwise (fun a b => a.name < b.name))
    (hlast : ∀ ce ∈ cache, ce.name.getLast? ≠ some SLASH) (done l : List cache_entry)
    (hl : entries_within cache base = done ++ l)
    (hsep : ∀ p ∈ done, ∀ name, before_slash (p.name.drop base.length) = some name →
      ∀ e ∈ l, ¬ Within (subdir base name) e) : Level cache base l := by
  induction hlen : l.length using Nat.strong_induction_on generalizing done l with
  | _ len ih =>
    cases l with
    | nil => exact .nil
    | cons ce t =>
      have hmem : ∀ e ∈ done ++ ce :: t, e ∈ cache ∧ Within base e := by
        intro e he
        rw [← hl] at he
        simpa [entries_within] using he
      have hsl : (ce :: t).Pairwise (fun a b => a.name < b.name) := by
        refine hs.sublist (List.Sublist.trans ?_ (List.filter_sublist (p := fun ce => decide (Within base ce))))
        have : (ce :: t).Sublist (entries_within cache base) := hl ▸ List.sublist_append_right _ _
        exact this
      obtain ⟨hcm, hcw⟩ := hmem ce (by simp)
      cases hname : before_slash (ce.name.drop base.length) with
      | none =>
        refine .file hname (ih t.length (by rw [← hlen]; simp) (done ++ [ce]) t (by simp [hl]) ?_ rfl)
        intro p hp name hpn e he
        rcases List.mem_append.mp hp with hp | hp
        · exact hsep p hp name hpn e (List.mem_cons_of_mem _ he)
        · rw [List.mem_singleton.mp hp, hname] at hpn
          cases hpn
      | some name =>
        have hn := (before_slash_some hname).1
        have hw := hcw.subdir_of_slash hname (hlast ce hcm)
        have hcont := within_contiguous hsl hw
        let p : cache_entry → Bool := fun e => decide (Within (subdir base name) e)
        have hsplit : t.takeWhile p ++ t.dropWhile p = t := List.takeWhile_append_dropWhile
        have hgroup : entries_within cache (subdir base name) = ce :: t.takeWhile p := by
          have h1 : entries_within cache (subdir base name) =
              (entries_within cache base).filter p := by
            unfold entries_within
            rw [List.filter_filter]
            refine List.filter_congr fun e _ => ?_
            by_cases he : Within (subdir base name) e
            · simp [p, he, he.up]
            · simp [p, he]
          have h2 : done.filter p = [] := by
            rw [List.filter_eq_nil_iff]
            intro d hd hdp
            have hdw : Within (subdir base name) d := by simpa [p] using hdp
            exact hsep d hd name (hdw.before_slash hn) ce List.mem_cons_self hw
          have h3 : (t.takeWhile p).filter p = t.takeWhile p :=
            List.filter_eq_self.mpr fun e he => List.mem_takeWhile_imp he
          have h4 : (t.dropWhile p).filter p = [] := by
            rw [List.filter_eq_nil_iff]
            intro d hd hdp
            exact hcont d hd (by simpa [p] using hdp)
          rw [h1, hl, List.filter_append, h2, List.nil_append,
            List.filter_cons_of_pos (by simpa [p] using hw), ← hsplit, List.filter_append]
          simp only [hsplit, h3, h4, List.append_nil]
        have hrest := ih (t.dropWhile p).length
          (by rw [← hlen]; exact Nat.lt_succ_of_le (List.length_dropWhile_le _ _))
          (done ++ ce :: t.takeWhile p) (t.dropWhile p) (by rw [hl]; simp [hsplit]) ?_ rfl
        · have := Level.dir hname hgroup hcont hrest
          rwa [List.cons_append, hsplit] at this
        · intro d hd n hdn e he
          have hein : e ∈ ce :: t := List.mem_cons_of_mem _ (List.dropWhile_subset _ he)
          rcases List.mem_append.mp hd with hd | hd
          · exact hsep d hd n hdn e hein
          · have hdw : Within (subdir base name) d := by
              rcases List.mem_cons.mp hd with rfl | hd
              · exact hw
              · simpa [p] using List.mem_takeWhile_imp hd
            rw [hdw.before_slash hn] at hdn
            cases hdn
            exact hcont e he

/-! ## The walk over the subtrees -/

/-- The entries go on at another level, or end. -/
def Stops (base : Bytes) (after : List cache_entry) : Prop :=
  ∀ e, after.head? = some e → at_level base e = false

theorem at_level_iff {base : Bytes} {ce : cache_entry} (hc : Named ce) :
    at_level base ce = true ↔ Within base ce := by
  unfold at_level Within
  rw [hc.namelen, Bool.and_eq_true, decide_eq_true_eq, beq_iff_eq, and_comm]
  exact and_congr_left' ⟨fun h => List.prefix_iff_eq_take.mpr h.symm,
    fun h => (List.prefix_iff_eq_take.mp h).symm⟩

/-- What the update of a node leaves. -/
structure Updated (hash_tree : Bytes → Sha1) (cache : List cache_entry) (objects : object_store)
    (base : Bytes) (it : cache_tree) (r : updated) : Prop where
  coherent : Coherent hash_tree cache base r.it
  whole : Whole cache r.objects base r.it
  grows : ∀ s, objects s = true → r.objects s = true
  counted : ∀ n, r.count = some n →
    n = (entries_within cache base).length ∧ r.it.entry_count = n
  valid : 0 ≤ it.entry_count → 0 ≤ r.it.entry_count

/-- A way to update the nodes of all directories of `base`. -/
def Updates (hash_tree : Bytes → Sha1) (cache : List cache_entry) (base : Bytes)
    (update : updater) : Prop :=
  ∀ name objects it ce group after, entries_within cache (subdir base name) = ce :: group →
    (∀ e ∈ after, Named e) → Stops (subdir base name) after →
    Coherent hash_tree cache (subdir base name) it → Whole cache objects (subdir base name) it →
    ∃ r, update objects it (ce :: group ++ after) (subdir base name) = some r ∧
      Updated hash_tree cache objects (subdir base name) it r

/-- The subtrees of a node while its entries are walked over. -/
structure Subs (hash_tree : Bytes → Sha1) (cache : List cache_entry) (objects : object_store)
    (base : Bytes) (it : cache_tree) (used : List Bytes) : Prop where
  sorted : it.Sorted
  names : ∀ sub ∈ it.down, SLASH ∉ sub.1
  coherent : ∀ sub ∈ it.down, Coherent hash_tree cache (subdir base sub.1) sub.2
  whole : ∀ sub ∈ it.down, Whole cache objects (subdir base sub.1) sub.2
  used : ∀ name ∈ used, ∃ sub, (name, sub) ∈ it.down ∧ 0 ≤ sub.entry_count

/-- A node keeps its own data, the names of its subtrees and, if it had all
the names of `l`, the validity of its subtrees. -/
structure Keeps (base : Bytes) (l : List cache_entry) (it it' : cache_tree) : Prop where
  entry_count : it'.entry_count = it.entry_count
  sha1 : it'.sha1 = it.sha1
  names : ∀ sub ∈ it.down, ∃ sub' ∈ it'.down, sub'.1 = sub.1
  valid : (∀ ce ∈ l, ∀ name, before_slash (ce.name.drop base.length) = some name →
      ∃ sub ∈ it.down, sub.1 = name) →
    (∀ sub ∈ it.down, 0 ≤ sub.2.entry_count) → ∀ sub ∈ it'.down, 0 ≤ sub.2.entry_count

section Walk
variable {hash_tree : Bytes → Sha1} {cache : List cache_entry} {objects : object_store}
  {base : Bytes} {it : cache_tree} {used : List Bytes}

theorem Keeps.refl (base : Bytes) (l : List cache_entry) (it : cache_tree) : Keeps base l it it :=
  ⟨rfl, rfl, fun sub h => ⟨sub, h, rfl⟩, fun _ h => h⟩

theorem Keeps.trans {l l1 l2 : List cache_entry} {it1 it2 : cache_tree} (h1 : Keeps base l1 it it1)
    (h2 : Keeps base l2 it1 it2) (hl1 : l1 ⊆ l) (hl2 : l2 ⊆ l) : Keeps base l it it2 where
  entry_count := h2.entry_count.trans h1.entry_count
  sha1 := h2.sha1.trans h1.sha1
  names sub hs := by
    obtain ⟨s1, hs1, hn1⟩ := h1.names sub hs
    obtain ⟨s2, hs2, hn2⟩ := h2.names s1 hs1
    exact ⟨s2, hs2, hn2.trans hn1⟩
  valid hall hv := by
    refine h2.valid ?_ (h1.valid (fun ce hce => hall ce (hl1 hce)) hv)
    intro ce hce name hname
    obtain ⟨s, hs, hn⟩ := hall ce (hl2 hce) name hname
    obtain ⟨s', hs', hn'⟩ := h1.names s hs
    exact ⟨s', hs', hn'.trans hn⟩

/-- One subtree is found or made, updated and put back. -/
theorem Subs.update_one {name : Bytes} {ce : cache_entry} {group after : List cache_entry}
    {update : updater} (h : Subs hash_tree cache objects base it used)
    (hu : Updates hash_tree cache base update)
    (hname : before_slash (ce.name.drop base.length) = some name)
    (hgroup : entries_within cache (subdir base name) = ce :: group)
    (hnamed : ∀ e ∈ after, Named e) (hstop : Stops (subdir base name) after) :
    ∃ sub r, find_subtree (create_subtree it name) name = some sub ∧
      update objects sub (ce :: group ++ after) (subdir base name) = some r ∧
      (∀ n, r.count = some n → n = group.length + 1) ∧ (∀ s, objects s = true → r.objects s = true) ∧
      Keeps base [ce] it (set_subtree (create_subtree it name) name r.it) ∧
      Subs hash_tree cache r.objects base (set_subtree (create_subtree it name) name r.it) used ∧
      (r.count.isSome = true →
        Subs hash_tree cache r.objects base (set_subtree (create_subtree it name) name r.it)
          (name :: used)) := by
  have hn := (before_slash_some hname).1
  obtain ⟨sub, hf, horigin, hput⟩ := put_subtree_spec h.sorted name
  have hsub : Coherent hash_tree cache (subdir base name) sub ∧
      Whole cache objects (subdir base name) sub := by
    rcases horigin with hin | ⟨rfl, -⟩
    · exact ⟨h.coherent _ hin, h.whole _ hin⟩
    · exact ⟨coherent_new _ _ _, whole_new _ _ _⟩
  obtain ⟨r, hr, hup⟩ := hu name objects sub ce group after hgroup hnamed hstop hsub.1 hsub.2
  obtain ⟨hs2, hcount, hsha, hmem⟩ := hput r.it
  have hold : ∀ s ∈ it.down, s.1 = name → s.2 = sub := by
    intro s hs hsn
    rcases horigin with hin | ⟨-, hno⟩
    · exact congrArg Prod.snd (h.sorted.eq_of_key hs hin (subtree_key_eq.mpr hsn))
    · exact absurd hsn (hno s hs)
  have hkeep : Keeps base [ce] it (set_subtree (create_subtree it name) name r.it) := by
    refine ⟨hcount, hsha, ?_, ?_⟩
    · intro s hs
      by_cases hsn : s.1 = name
      · exact ⟨(name, r.it), (hmem _).mpr (Or.inl rfl), hsn.symm⟩
      · exact ⟨s, (hmem s).mpr (Or.inr ⟨hs, hsn⟩), rfl⟩
    · intro hall hv s hs
      rcases (hmem s).mp hs with rfl | ⟨hs, -⟩
      · obtain ⟨s0, hs0, hsn⟩ := hall ce List.mem_cons_self name hname
        exact hup.valid (hold s0 hs0 hsn ▸ hv s0 hs0)
      · exact hv s hs
  have hbase : Subs hash_tree cache r.objects base
      (set_subtree (create_subtree it name) name r.it) used := by
    refine ⟨hs2, ?_, ?_, ?_, ?_⟩
    · intro s hs
      rcases (hmem s).mp hs with rfl | ⟨hs, -⟩
      · exact hn
      · exact h.names s hs
    · intro s hs
      rcases (hmem s).mp hs with rfl | ⟨hs, -⟩
      · exact hup.coherent
      · exact h.coherent s hs
    · intro s hs
      rcases (hmem s).mp hs with rfl | ⟨hs, -⟩
      · exact hup.whole
      · exact (h.whole s hs).mono hup.grows
    · intro n hnu
      obtain ⟨s, hs, hv⟩ := h.used n hnu
      by_cases hne : n = name
      · exact ⟨r.it, (hmem _).mpr (Or.inl (by rw [hne])), hup.valid (hold _ hs hne ▸ hv)⟩
      · exact ⟨s, (hmem _).mpr (Or.inr ⟨hs, hne⟩), hv⟩
  refine ⟨sub, r, hf, hr, ?_, hup.grows, hkeep, hbase, ?_⟩
  · intro n hcn
    rw [(hup.counted n hcn).1, hgroup, List.length_cons]
  · intro hsome
    refine { hbase with used := ?_ }
    intro n hnu
    rcases List.mem_cons.mp hnu with rfl | hnu
    · obtain ⟨k, hk⟩ := Option.isSome_iff_exists.mp hsome
      refine ⟨r.it, (hmem _).mpr (Or.inl rfl), ?_⟩
      rw [(hup.counted k hk).2]
      omega
    · exact hbase.used n hnu

theorem update_subtrees_skip (update : updater) (group l : List cache_entry) :
    update_subtrees update base (group ++ l) group.length objects it used =
      update_subtrees update base l 0 objects it used := by
  induction group with
  | nil => rfl
  | cons e group ih => exact ih

theorem within_of_group {ce : cache_entry} {group : List cache_entry}
    (hgroup : entries_within cache base = ce :: group) : Within base ce := by
  have : ce ∈ entries_within cache base := by simp [hgroup]
  simpa [entries_within] using (List.mem_filter.mp this).2

theorem take_subdir {ce : cache_entry} {name : Bytes} (h : Within (subdir base name) ce) :
    ce.name.take (base.length + name.length + 1) = subdir base name := by
  have hlen : base.length + name.length + 1 = (subdir base name).length := by
    simp [subdir, Nat.add_assoc]
  rw [hlen]
  exact (List.prefix_iff_eq_take.mp h.1).symm

theorem Stops.subdir {name : Bytes} {rest after : List cache_entry} (h : Stops base after)
    (hn : ∀ e ∈ rest ++ after, Named e) (hout : ∀ e ∈ rest, ¬ Within (subdir base name) e) :
    Stops (git.subdir base name) (rest ++ after) := by
  intro e he
  rw [Bool.eq_false_iff, Ne, at_level_iff (hn e (List.mem_of_mem_head? he))]
  intro hw
  cases rest with
  | cons r rest =>
    cases he
    exact hout e List.mem_cons_self hw
  | nil =>
    have hlev := h e he
    rw [Bool.eq_false_iff, Ne, at_level_iff (hn e (List.mem_of_mem_head? he))] at hlev
    exact hlev hw.up

theorem update_subtrees_stops (update : updater) {after : List cache_entry}
    (hstop : Stops base after) :
    update_subtrees update base after 0 objects it used = some ⟨objects, it, used, true⟩ := by
  cases after with
  | nil => rfl
  | cons e after =>
    have := hstop e rfl
    simp [update_subtrees, this]

/-- The walk comes back; when nothing failed, it saw every directory. -/
theorem update_subtrees_spec {update : updater} {l after : List cache_entry}
    (hu : Updates hash_tree cache base update) (hl : Level cache base l)
    (hin : ∀ e ∈ l, Within base e) (hnamed : ∀ e ∈ l ++ after, Named e)
    (hstop : Stops base after) (hs : Subs hash_tree cache objects base it used) :
    ∃ w, update_subtrees update base (l ++ after) 0 objects it used = some w ∧
      Subs hash_tree cache w.objects base w.it w.used ∧
      (∀ s, objects s = true → w.objects s = true) ∧ Keeps base l it w.it ∧ used ⊆ w.used ∧
      (w.ok = true → ∀ ce ∈ l, ∀ name,
        before_slash (ce.name.drop base.length) = some name → name ∈ w.used) := by
  induction hl generalizing objects it used with
  | nil =>
    refine ⟨_, update_subtrees_stops update hstop, hs, fun _ h => h, Keeps.refl _ _ _,
      List.Subset.refl _, ?_⟩
    simp
  | @file ce rest hname hrest ih =>
    have hlev := (at_level_iff (hnamed ce (by simp))).mpr (hin ce (by simp))
    obtain ⟨w, hw, hsubs, hgrow, hkeep, hused, hseen⟩ := ih
      (fun e he => hin e (List.mem_cons_of_mem _ he))
      (fun e he => hnamed e (List.mem_cons_of_mem _ he)) hs
    refine ⟨w, ?_, hsubs, hgrow, (Keeps.refl base [ce] it).trans hkeep (by simp) (by simp), hused, ?_⟩
    · rw [List.cons_append, update_subtrees, hlev, hname]
      exact hw
    · intro hok e he name hen
      rcases List.mem_cons.mp he with rfl | he
      · rw [hname] at hen
        cases hen
      · exact hseen hok e he name hen
  | @dir name ce group rest hname hgroup hout hrest ih =>
    have hlev := (at_level_iff (hnamed ce (by simp))).mpr (hin ce (by simp))
    have hw := within_of_group hgroup
    have hnamed' : ∀ e ∈ rest ++ after, Named e := fun e he => hnamed e (by
      simp only [List.mem_append, List.mem_cons] at he ⊢
      tauto)
    have hstop' : Stops (git.subdir base name) (rest ++ after) := hstop.subdir hnamed' hout
    obtain ⟨sub, r, hf, hr, hcount, hgrow1, hkeep1, hsubs1, hsubs2⟩ :=
      hs.update_one hu hname hgroup hnamed' hstop'
    have hlist : ce :: group ++ rest ++ after = ce :: (group ++ (rest ++ after)) := by simp
    rw [List.cons_append] at hr
    rw [hlist, update_subtrees, hlev, hname]
    simp only [hf, take_subdir hw, hr, Bool.not_true, Bool.false_eq_true, if_false]
    cases hc : r.count with
    | none =>
      refine ⟨_, rfl, hsubs1, hgrow1, ?_, List.Subset.refl _, by simp⟩
      exact hkeep1.trans (Keeps.refl base [] _) (by simp) (by simp)
    | some n =>
      obtain rfl := hcount n hc
      obtain ⟨w, hwr, hsubs, hgrow, hkeep, hused, hseen⟩ := ih
        (fun e he => hin e (by simp [he])) hnamed' (hsubs2 (by simp [hc]))
      refine ⟨w, ?_, hsubs, fun s h => hgrow s (hgrow1 s h),
        hkeep1.trans hkeep (by simp) (by simp), fun n hn => hused (List.mem_cons_of_mem _ hn), ?_⟩
      · exact (update_subtrees_skip update group (rest ++ after)).trans hwr
      · intro hok e he n hen
        rcases List.mem_append.mp he with he | he
        · have hew : Within (git.subdir base name) e := by
            have : e ∈ entries_within cache (git.subdir base name) := hgroup ▸ he
            simpa [entries_within] using (List.mem_filter.mp this).2
          rw [hew.before_slash (before_slash_some hname).1] at hen
          cases hen
          exact hused List.mem_cons_self
        · exact hseen hok e he n hen

end Walk

/-! ## The tree object of one level -/

section Write
variable {hash_tree : Bytes → Sha1} {cache : List cache_entry} {base : Bytes} {it : cache_tree}

theorem write_level_skip (missing_ok : Bool) (objects : object_store) (group l : List cache_entry)
    (i : Nat) (buffer : Bytes) :
    write_level missing_ok objects base it (group ++ l) group.length i buffer =
      write_level missing_ok objects base it l 0 i buffer := by
  induction group with
  | nil => rfl
  | cons e group ih => exact ih

theorem write_level_stops (missing_ok : Bool) (objects : object_store) {after : List cache_entry}
    (hstop : Stops base after) (i : Nat) (buffer : Bytes) :
    write_level missing_ok objects base it after 0 i buffer = some (some (buffer, i)) := by
  cases after with
  | nil => rfl
  | cons e after =>
    have := hstop e rfl
    simp [write_level, this]

/-- Only placeholders are left out. -/
theorem Fits.left_out {ce : cache_entry} (h : Fits cache) (hce : ce ∈ cache) :
    ce.has (CE_REMOVE ||| CE_INTENT_TO_ADD) = !written ce := by
  have hor : ce.has (CE_REMOVE ||| CE_INTENT_TO_ADD) =
      (ce.has CE_REMOVE || ce.has CE_INTENT_TO_ADD) := by
    unfold cache_entry.has
    rw [BitVec.and_or_distrib_left, Bool.eq_iff_iff]
    simp only [bne_iff_ne, ne_eq, Bool.or_eq_true]
    constructor
    · intro hne
      by_contra hno
      push Not at hno
      exact hne (by rw [hno.1, hno.2]; rfl)
    · rintro (hne | hne) h0
      · refine hne (BitVec.eq_of_toNat_eq ?_)
        have := congrArg BitVec.toNat h0
        rw [BitVec.toNat_or] at this
        exact (Nat.or_eq_zero_iff.mp this).1
      · refine hne (BitVec.eq_of_toNat_eq ?_)
        have := congrArg BitVec.toNat h0
        rw [BitVec.toNat_or] at this
        exact (Nat.or_eq_zero_iff.mp this).2
  rw [hor]
  unfold written
  cases hr : ce.has CE_REMOVE with
  | false => simp
  | true => simp [h.going ce hce hr]

/-- What the first pass made of the subtrees that the second pass uses. -/
def Ready (hash_tree : Bytes → Sha1) (cache : List cache_entry) (base : Bytes) (it : cache_tree)
    (l : List cache_entry) : Prop :=
  ∀ ce ∈ l, ∀ name, before_slash (ce.name.drop base.length) = some name →
    ∃ sub, find_subtree it name = some sub ∧ 0 ≤ sub.entry_count ∧
      Coherent hash_tree cache (subdir base name) sub

theorem write_level_spec {l after : List cache_entry} (missing_ok : Bool) (objects : object_store)
    (hl : Level cache base l) (hin : ∀ e ∈ l, e ∈ cache ∧ Within base e)
    (hnamed : ∀ e ∈ l ++ after, Named e) (hstop : Stops base after) (fits : Fits cache)
    (hready : Ready hash_tree cache base it l) (i : Nat) (buffer : Bytes) :
    ∃ x, write_level missing_ok objects base it (l ++ after) 0 i buffer = some x ∧
      ∀ b n, x = some (b, n) → n = i + l.length ∧
        ∃ b', b = buffer ++ b' ∧ TreeObject hash_tree base (l.filter written) b' := by
  induction hl generalizing i buffer with
  | nil =>
    refine ⟨_, write_level_stops missing_ok objects hstop i buffer, ?_⟩
    rintro b n ⟨⟩
    exact ⟨rfl, [], by simp, .nil base⟩
  | @file ce rest hname hrest ih =>
    obtain ⟨hmem, hw⟩ := hin ce (by simp)
    have hlev := (at_level_iff (hnamed ce (by simp))).mpr hw
    have hline : line_of base it ce = some ⟨ce.ce_mode, ce.name.drop base.length, ce.sha1, 1⟩ := by
      simp [line_of, hname]
    rw [List.cons_append, write_level, hlev, hline]
    simp only [Bool.not_true, Bool.false_eq_true, if_false, Nat.sub_self]
    split
    · exact ⟨none, rfl, by simp⟩
    · rw [fits.left_out hmem]
      cases hwr : written ce with
      | true =>
        simp only [Bool.not_true, Bool.false_eq_true, if_false]
        obtain ⟨x, hx, hspec⟩ := ih (fun e he => hin e (List.mem_cons_of_mem _ he))
          (fun e he => hnamed e (List.mem_cons_of_mem _ he))
          (fun e he => hready e (List.mem_cons_of_mem _ he)) (i + 1)
          (buffer ++ tree_entry ce.ce_mode (ce.name.drop base.length) ce.sha1)
        refine ⟨x, hx, fun b n hbn => ?_⟩
        obtain ⟨hn, b', hb', hobj⟩ := hspec b n hbn
        refine ⟨by rw [hn, List.length_cons]; omega,
          tree_entry ce.ce_mode (ce.name.drop base.length) ce.sha1 ++ b', by rw [hb']; simp, ?_⟩
        rw [List.filter_cons_of_pos hwr]
        exact .file hname hobj
      | false =>
        simp only [Bool.not_false, if_true]
        obtain ⟨x, hx, hspec⟩ := ih (fun e he => hin e (List.mem_cons_of_mem _ he))
          (fun e he => hnamed e (List.mem_cons_of_mem _ he))
          (fun e he => hready e (List.mem_cons_of_mem _ he)) (i + 1) buffer
        refine ⟨x, hx, fun b n hbn => ?_⟩
        obtain ⟨hn, b', hb', hobj⟩ := hspec b n hbn
        refine ⟨by rw [hn, List.length_cons]; omega, b', hb', ?_⟩
        rw [List.filter_cons_of_neg (by simp [hwr])]
        exact hobj
  | @dir name ce group rest hname hgroup hout hrest ih =>
    obtain ⟨hmem, hw⟩ := hin ce (by simp)
    have hlev := (at_level_iff (hnamed ce (by simp))).mpr hw
    obtain ⟨sub, hf, hv, hcoh⟩ := hready ce (by simp) name hname
    obtain ⟨hcount, -, bsub, hobjsub, hsha⟩ := hcoh.covers hv
    rw [hgroup] at hcount hobjsub
    have hline : line_of base it ce = some ⟨S_IFDIR, name, sub.sha1, group.length + 1⟩ := by
      have h1 : 1 ≤ sub.entry_count := by
        rw [hcount, List.length_cons]
        omega
      simp only [line_of, hname, hf, if_pos h1]
      rw [hcount]
      rfl
    have hlist : ce :: group ++ rest ++ after = ce :: (group ++ (rest ++ after)) := by simp
    have hgw : ∀ e ∈ ce :: group, Within (subdir base name) e := by
      intro e he
      rw [← hgroup] at he
      simpa [entries_within] using (List.mem_filter.mp he).2
    have hih := ih (fun e he => hin e (by simp [he]))
      (fun e he => hnamed e (by
        simp only [List.mem_append, List.mem_cons] at he ⊢
        tauto)) (fun e he => hready e (by simp [he]))
    rw [hlist, write_level, hlev, hline]
    simp only [Bool.not_true, Bool.false_eq_true, if_false, Nat.add_sub_cancel]
    split
    · exact ⟨none, rfl, by simp⟩
    · rw [fits.left_out hmem, write_level_skip, write_level_skip]
      cases hwr : written ce with
      | true =>
        simp only [Bool.not_true, Bool.false_eq_true, if_false]
        obtain ⟨x, hx, hspec⟩ := hih (i + (group.length + 1))
          (buffer ++ tree_entry S_IFDIR name sub.sha1)
        refine ⟨x, hx, fun b n hbn => ?_⟩
        obtain ⟨hn, b', hb', hobj⟩ := hspec b n hbn
        refine ⟨by rw [hn]; simp; omega, tree_entry S_IFDIR name sub.sha1 ++ b',
          by rw [hb']; simp, ?_⟩
        rw [List.filter_append, List.filter_cons_of_pos hwr, hsha]
        rw [List.filter_cons_of_pos hwr] at hobjsub
        refine .dir hname ?_ ?_ hobjsub hobj
        · intro e he
          rcases List.mem_cons.mp he with rfl | he
          · exact hgw _ List.mem_cons_self
          · exact hgw e (List.mem_cons_of_mem _ (List.mem_filter.mp he).1)
        · exact fun e he => hout e (List.mem_filter.mp he).1
      | false =>
        simp only [Bool.not_false, if_true]
        obtain ⟨x, hx, hspec⟩ := hih (i + (group.length + 1)) buffer
        refine ⟨x, hx, fun b n hbn => ?_⟩
        obtain ⟨hn, b', hb', hobj⟩ := hspec b n hbn
        refine ⟨by rw [hn]; simp; omega, b', hb', ?_⟩
        -- the first entry is a placeholder, so the whole directory is left out
        have hita : ce.has CE_INTENT_TO_ADD = true := by simpa [written] using hwr
        have hnone : (ce :: group).filter written = [] := by
          rw [List.filter_eq_nil_iff]
          intro e he
          rcases List.mem_cons.mp he with rfl | he
          · simp [hwr]
          · simp [written, fits.first base name ce group hgroup hita e he]
        rw [List.filter_append, hnone, List.nil_append]
        exact hobj

end Write

/-! ## One node, and the whole tree -/

section Update
variable {cache : List cache_entry} {objects : object_store} {base : Bytes} {it : cache_tree}

theorem discard_spec (it : cache_tree) (used : List Bytes) (h : it.Sorted) :
    (discard_unused_subtrees it used).Sorted ∧
      ∀ sub, sub ∈ (discard_unused_subtrees it used).down ↔ sub ∈ it.down ∧ sub.1 ∈ used := by
  unfold discard_unused_subtrees
  constructor
  · exact Ascends.sublist h List.filter_sublist
  · intro sub
    simp [List.mem_filter]

/-- The entries in the order of `cache_name_compare` are in the order of
their names, when all of them are merged. -/
theorem names_ascend {istate : index_state} (h : Ordered istate)
    (hm : ∀ ce ∈ istate.cache, ce_stage ce = 0) :
    istate.cache.Pairwise (fun a b => a.name < b.name) := by
  refine List.Pairwise.imp_of_mem ?_ h.ascends
  intro a b ha hb hab
  rw [(h.named a ha).key, (h.named b hb).key, Prod.Lex.toLex_lt_toLex, hm a ha, hm b hb] at hab
  rcases hab with hlt | ⟨_, hlt⟩
  · by_contra hle
    exact absurd hlt (not_lt.mpr (list_order.take_le_take _ (not_lt.mp hle)))
  · exact absurd hlt (lt_irrefl _)

/-- What is the same in all calls of an update. -/
structure Updatable (cache : List cache_entry) : Prop extends Fits cache where
  sorted : cache.Pairwise (fun a b => a.name < b.name)
  named : ∀ ce ∈ cache, Named ce
  merged : ∀ ce ∈ cache, ce_stage ce = 0

theorem mem_of_within {e : cache_entry} (h : e ∈ entries_within cache base) :
    e ∈ cache ∧ Within base e := by
  simpa [entries_within] using h

/-- A node whose subtrees are all updated. -/
structure Finished (hash_tree : Bytes → Sha1) (cache : List cache_entry) (objects : object_store)
    (base : Bytes) (down : List (Bytes × cache_tree)) : Prop where
  sorted : Ascends subtree_key down
  names : ∀ sub ∈ down, SLASH ∉ sub.1
  coherent : ∀ sub ∈ down, Coherent hash_tree cache (subdir base sub.1) sub.2
  whole : ∀ sub ∈ down, Whole cache objects (subdir base sub.1) sub.2
  valid : ∀ sub ∈ down, 0 ≤ sub.2.entry_count
  all : ∀ ce ∈ entries_within cache base, ∀ name,
    before_slash (ce.name.drop base.length) = some name → ∃ sub ∈ down, sub.1 = name

theorem Finished.node {hash_tree : Bytes → Sha1} {down : List (Bytes × cache_tree)} {n : Int}
    {sha1 : Sha1} (h : Finished hash_tree cache objects base down)
    (hc : 0 ≤ n → Covers hash_tree cache base (.mk n sha1 down)) :
    Coherent hash_tree cache base (.mk n sha1 down) ∧ Whole cache objects base (.mk n sha1 down) :=
  ⟨.mk h.sorted h.names hc (fun _ => h.valid) h.coherent, .mk (fun _ => Or.inr h.all) h.whole⟩

theorem Finished.grows {hash_tree : Bytes → Sha1} {down : List (Bytes × cache_tree)}
    {objects' : object_store} (h : Finished hash_tree cache objects base down)
    (hs : ∀ s, objects s = true → objects' s = true) :
    Finished hash_tree cache objects' base down :=
  { h with whole := fun sub hsub => (h.whole sub hsub).mono hs }

theorem Covers.same_node {hash_tree : Bytes → Sha1} {it' : cache_tree}
    (h : Covers hash_tree cache base it) (hn : it'.entry_count = it.entry_count)
    (hs : it'.sha1 = it.sha1) : Covers hash_tree cache base it' :=
  ⟨hn ▸ h.count, h.merged, hs ▸ h.object⟩

/-- The walk went through: only the subtrees that it saw are left. -/
theorem finished_of_walk {hash_tree : Bytes → Sha1} {used : List Bytes}
    (hs : Subs hash_tree cache objects base it used)
    (hall : ∀ ce ∈ entries_within cache base, ∀ name,
      before_slash (ce.name.drop base.length) = some name → name ∈ used) :
    Finished hash_tree cache objects base (discard_unused_subtrees it used).down := by
  obtain ⟨hsorted, hmem⟩ := discard_spec it used hs.sorted
  refine ⟨hsorted, ?_, ?_, ?_, ?_, ?_⟩
  · exact fun sub h => hs.names sub ((hmem sub).mp h).1
  · exact fun sub h => hs.coherent sub ((hmem sub).mp h).1
  · exact fun sub h => hs.whole sub ((hmem sub).mp h).1
  · intro sub h
    obtain ⟨h, hu⟩ := (hmem sub).mp h
    obtain ⟨s, hsm, hv⟩ := hs.used sub.1 hu
    have := hs.sorted.eq_of_key h hsm (subtree_key_eq.mpr rfl)
    rw [this]
    exact hv
  · intro ce hce name hname
    have hu := hall ce hce name hname
    obtain ⟨s, hsm, -⟩ := hs.used name hu
    exact ⟨(name, s), (hmem _).mpr ⟨hsm, hu⟩, rfl⟩

theorem Finished.ready {hash_tree : Bytes → Sha1}
    (h : Finished hash_tree cache objects base it.down) :
    Ready hash_tree cache base it (entries_within cache base) := by
  intro ce hce name hname
  obtain ⟨sub, hsub, rfl⟩ := h.all ce hce name hname
  exact ⟨sub.2, (find_subtree_mem h.sorted).mpr hsub, h.valid sub hsub, h.coherent sub hsub⟩

/-- The walk failed below a node: it agrees with the index as it did. -/
theorem failed_walk {hash_tree : Bytes → Sha1} {used : List Bytes} {it' : cache_tree}
    (hcoh : Coherent hash_tree cache base it) (hwhole : Whole cache objects base it)
    (hskip : ¬ (0 ≤ it.entry_count ∧ objects it.sha1 = true)) {objects' : object_store}
    (hs : Subs hash_tree cache objects' base it' used)
    (hk : Keeps base (entries_within cache base) it it') :
    Coherent hash_tree cache base it' ∧ Whole cache objects' base it' := by
  have hall : 0 ≤ it.entry_count → ∀ ce ∈ entries_within cache base, ∀ name,
      before_slash (ce.name.drop base.length) = some name → ∃ sub ∈ it.down, sub.1 = name :=
    fun hv => (hwhole.here hv).resolve_left fun ho => hskip ⟨hv, ho⟩
  constructor
  · refine .mk hs.sorted hs.names ?_ ?_ hs.coherent
    · intro hv
      exact (hcoh.covers (hk.entry_count ▸ hv)).same_node hk.entry_count hk.sha1
    · intro hv
      rw [hk.entry_count] at hv
      exact hk.valid (hall hv) (hcoh.valid hv)
  · refine .mk ?_ hs.whole
    intro hv
    rw [hk.entry_count] at hv
    refine Or.inr fun ce hce name hname => ?_
    obtain ⟨sub, hsub, hn⟩ := hall hv ce hce name hname
    obtain ⟨sub', hsub', hn'⟩ := hk.names sub hsub
    exact ⟨sub', hsub', hn'.trans hn⟩

theorem update_one_spec (env : write_tree_env) (hc : Updatable cache) {depth : Nat}
    {after : List cache_entry} (hd : 0 < depth)
    (hdepth : ∀ e ∈ entries_within cache base, e.name.length < base.length + depth)
    (hnamed : ∀ e ∈ after, Named e) (hstop : Stops base after)
    (hcoh : Coherent env.hash_tree cache base it) (hwhole : Whole cache objects base it) :
    ∃ r, update_one env depth objects it (entries_within cache base ++ after) base = some r ∧
      Updated env.hash_tree cache objects base it r := by
  induction depth generalizing base objects it after with
  | zero => omega
  | succ depth ih =>
    rw [update_one]
    split
    · rename_i hskip
      refine ⟨_, rfl, hcoh, hwhole, fun _ h => h, ?_, fun h => h⟩
      rintro n ⟨⟩
      have hcount := (hcoh.covers hskip.1).count
      refine ⟨by rw [hcount]; rfl, ?_⟩
      simp only [Int.toNat_of_nonneg hskip.1]
    · rename_i hskip
      have hl : Level cache base (entries_within cache base) :=
        level_of_sorted hc.sorted hc.names [] _ rfl (by simp)
      have hin : ∀ e ∈ entries_within cache base, e ∈ cache ∧ Within base e :=
        fun e he => mem_of_within he
      have hnamed' : ∀ e ∈ entries_within cache base ++ after, Named e := by
        intro e he
        rcases List.mem_append.mp he with he | he
        · exact hc.named e (hin e he).1
        · exact hnamed e he
      have hu : Updates env.hash_tree cache base (update_one env depth) := by
        intro name objects it ce group after hgroup hna hst hco hwh
        rw [← hgroup]
        have hsub : ∀ e ∈ entries_within cache (subdir base name),
            e.name.length < (subdir base name).length + depth := by
          intro e he
          obtain ⟨hem, hew⟩ := mem_of_within he
          have := hdepth e (List.mem_filter.mpr ⟨hem, by simpa using hew.up⟩)
          simp only [subdir, List.length_append, List.length_singleton]
          omega
        refine ih ?_ hsub hna hst hco hwh
        have hce : ce ∈ entries_within cache (subdir base name) := by simp [hgroup]
        have := (mem_of_within hce).2.2
        have := hsub ce hce
        omega
      have hs0 : Subs env.hash_tree cache objects base it [] :=
        ⟨hcoh.sorted, hcoh.names, hcoh.down, hwhole.down, by simp⟩
      obtain ⟨w, hw, hs, hgrow, hkeep, -, hseen⟩ :=
        update_subtrees_spec hu hl (fun e he => (hin e he).2) hnamed' hstop hs0
      rw [hw]
      cases hok : w.ok with
      | false =>
        obtain ⟨hco, hwh⟩ := failed_walk hcoh hwhole hskip hs hkeep
        refine ⟨⟨w.objects, w.it, none⟩, by simp [hok], hco, hwh, hgrow, by simp, ?_⟩
        exact fun hv => hkeep.entry_count ▸ hv
      | true =>
        have hfin := finished_of_walk hs (hseen hok)
        have hready : Ready env.hash_tree cache base (discard_unused_subtrees w.it w.used)
            (entries_within cache base) := hfin.ready
        obtain ⟨x, hx, hspec⟩ := write_level_spec env.missing_ok w.objects hl hin hnamed' hstop
          hc.toFits hready 0 []
        simp only [hok, Bool.not_true, Bool.false_eq_true, if_false, hx]
        have hcount : (discard_unused_subtrees w.it w.used).entry_count = it.entry_count :=
          hkeep.entry_count
        rcases x with _ | ⟨b, n⟩
        · -- an object is missing: the node stays as it was
          have hnode : Coherent env.hash_tree cache base (discard_unused_subtrees w.it w.used) ∧
              Whole cache w.objects base (discard_unused_subtrees w.it w.used) :=
            hfin.node fun hv => (hcoh.covers (hkeep.entry_count ▸ hv)).same_node hcount hkeep.sha1
          refine ⟨_, rfl, hnode.1, hnode.2, hgrow, by simp, ?_⟩
          exact fun hv => by simpa only [hcount] using hv
        · obtain ⟨hn, b', hb', hobj⟩ := hspec b n rfl
          rw [Nat.zero_add] at hn
          rw [List.nil_append] at hb'
          subst hn hb'
          have hnew : Covers env.hash_tree cache base (.mk (entries_within cache base).length
              (env.hash_tree b) (discard_unused_subtrees w.it w.used).down) :=
            ⟨rfl, fun e he => hc.merged e (hin e he).1, b, hobj, rfl⟩
          simp only
          split_ifs with hdry hwr
          · have hnode := hfin.node fun _ => hnew
            refine ⟨_, rfl, hnode.1, hnode.2, hgrow, ?_, fun _ => by simp⟩
            rintro k ⟨⟩
            exact ⟨rfl, rfl⟩
          · have hadd : ∀ s, w.objects s = true → w.objects.add (env.hash_tree b) s = true := by
              intro s hso
              simp [object_store.add, hso]
            have hnode := (hfin.grows hadd).node fun _ => hnew
            refine ⟨_, rfl, hnode.1, hnode.2, fun s h => hadd s (hgrow s h), ?_, fun _ => by simp⟩
            rintro k ⟨⟩
            exact ⟨rfl, rfl⟩
          · -- the object could not be written: its name is in the node already
            have hold : 0 ≤ it.entry_count → Covers env.hash_tree cache base (.mk it.entry_count
                (env.hash_tree b) (discard_unused_subtrees w.it w.used).down) :=
              fun hv => ⟨(hcoh.covers hv).count, (hcoh.covers hv).merged, b, hobj, rfl⟩
            have hnode := hfin.node hold
            refine ⟨_, rfl, ?_, ?_, hgrow, by simp, ?_⟩
            · rw [hcount]
              exact hnode.1
            · rw [hcount]
              exact hnode.2
            · intro hv
              simpa only [hcount, cache_tree.entry_count_mk] using hv

end Update

theorem foldr_max_ge {l : List Nat} {n : Nat} (h : n ∈ l) : n ≤ l.foldr max 0 := by
  induction l with
  | nil => cases h
  | cons a l ih =>
    rw [List.foldr_cons]
    rcases List.mem_cons.mp h with rfl | h
    · exact Nat.le_max_left _ _
    · exact (ih h).trans (Nat.le_max_right _ _)

theorem name_bound_spec (cache : List cache_entry) :
    0 < name_bound cache ∧ ∀ e ∈ cache, e.name.length < name_bound cache := by
  refine ⟨Nat.succ_pos _, fun e he => Nat.lt_succ_of_le ?_⟩
  exact foldr_max_ge (List.mem_map_of_mem he)

/-- The update of the whole tree comes back, and the tree agrees with the
index whether it failed or not. -/
theorem cache_tree_update_spec (env : write_tree_env) {istate : index_state} {it : cache_tree}
    (objects : object_store) (h : Ordered istate) (hf : Fits istate.cache)
    (hcoh : Coherent env.hash_tree istate.cache [] it) (hwhole : Whole istate.cache objects [] it) :
    ∃ objects' it' ok, cache_tree_update env objects it istate.cache = some (objects', it', ok) ∧
      Coherent env.hash_tree istate.cache [] it' ∧ (ok = true → 0 ≤ it'.entry_count) := by
  unfold cache_tree_update
  cases hv : verify_cache istate.cache with
  | false => exact ⟨objects, it, false, rfl, hcoh, by simp⟩
  | true =>
    unfold verify_cache at hv
    rw [Bool.and_eq_true, List.all_eq_true] at hv
    have hm : ∀ ce ∈ istate.cache, ce_stage ce = 0 := fun ce hce => by simpa using hv.1 ce hce
    have hc : Updatable istate.cache := ⟨hf, names_ascend h hm, h.named, hm⟩
    obtain ⟨hpos, hlen⟩ := name_bound_spec istate.cache
    have hall : entries_within istate.cache [] = istate.cache := by
      refine List.filter_eq_self.mpr fun e he => ?_
      have := List.length_pos_iff.mpr (hf.nonempty e he)
      simpa [Within] using this
    have hdepth : ∀ e ∈ entries_within istate.cache [],
        e.name.length < ([] : Bytes).length + name_bound istate.cache :=
      fun e he => by simpa using hlen e (mem_of_within he).1
    have hstop : Stops [] [] := by simp [Stops]
    obtain ⟨r, hr, hup⟩ := update_one_spec env hc hpos hdepth (by simp) hstop hcoh hwhole
    rw [List.append_nil, hall] at hr
    simp only [Bool.not_true, Bool.false_eq_true, if_false, hr, Option.map_some]
    refine ⟨_, _, _, rfl, hup.coherent, fun hok => ?_⟩
    obtain ⟨n, hn⟩ := Option.isSome_iff_exists.mp hok
    rw [(hup.counted n hn).2]
    omega

end git

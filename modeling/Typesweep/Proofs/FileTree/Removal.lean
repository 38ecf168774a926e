import Typesweep.Proofs.FileTree.Depth
import Typesweep.Proofs.FileTree.Walk
import Typesweep.Proofs.Path.Relative
import Typesweep.Proofs.Text.Utf8

/-!
# Trees without one of their files

Nothing lies below a file, so a path that does not lead to a file still leads to the same place when
the file is taken away. Other paths than its own may lead to it, through links; what a reader sees
of the two trees differs at these paths only.

* `Leads`, `follow_eq_ok_iff`: following a path as a relation.
* `Leads.follow_append`, `Leads.exists_between`: a way can be gone on with, and cut anywhere.
* `find_drop`, `find_of_drop`: where paths lead without the file.
* `mem_listing_drop_iff`, `readText_of_drop`, `mem_filesBelow_drop_iff`: names, texts and walks.
-/

namespace Typesweep.FileTree

open RawText (slash dot)

open Component

/-! ## Following a path -/

/-- From the place `here` the segments lead to `found`, through at most `links` links. -/
inductive Leads (t : FileTree) : Nat → Place → List RawText → Place → Prop
  | done {links : Nat} {here : Place} : Leads t links here [] here
  | stay {links : Nat} {here found : Place} {segment : RawText} {rest : List RawText}
      (hdir : t.entry? here = some .dir) (hstay : segment = [] ∨ segment = [dot])
      (hrest : Leads t links here rest found) : Leads t links here (segment :: rest) found
  | up {links : Nat} {here found : Place} {rest : List RawText}
      (hdir : t.entry? here = some .dir) (hrest : Leads t links here.dropLast rest found) :
      Leads t links here ([dot, dot] :: rest) found
  | name {links : Nat} {here found : Place} {segment : RawText} {rest : List RawText}
      {entry : Entry}
      (hdir : t.entry? here = some .dir) (hname : ofSegment? segment = some (.name segment))
      (hentry : t.entry? (here ++ [segment]) = some entry)
      (hnolink : ∀ target, entry ≠ .link target)
      (hrest : Leads t links (here ++ [segment]) rest found) :
      Leads t links here (segment :: rest) found
  | link {links : Nat} {here found : Place} {segment : RawText} {rest : List RawText}
      {target : Path}
      (hdir : t.entry? here = some .dir) (hname : ofSegment? segment = some (.name segment))
      (hentry : t.entry? (here ++ [segment]) = some (.link target)) (htarget : target.raw ≠ [])
      (hrest : Leads t links (if target.isAbsolute then [] else here) (target.segments ++ rest)
        found) :
      Leads t (links + 1) here (segment :: rest) found

variable {t : FileTree} {p : Path} {name : RawText} {here place found : Place} {entry : Entry}
  {segments : List RawText} {links : Nat}

theorem leads_of_followWith {onLink : Place → List RawText → Except AccessError Place}
    (hlink : ∀ here segments, onLink here segments = .ok found →
      ∃ fewer, links = fewer + 1 ∧ Leads t fewer here segments found)
    (h : t.followWith onLink here segments = .ok found) : Leads t links here segments found := by
  induction segments generalizing here with
  | nil =>
    obtain rfl := Except.ok.inj h
    exact .done
  | cons segment rest ih =>
    rw [followWith] at h
    split at h
    · cases h
    · cases h
    · cases h
    · next hdir =>
      by_cases hstay : segment = [] ∨ segment = [dot]
      · rw [if_pos hstay] at h
        exact .stay hdir hstay (ih h)
      · rw [if_neg hstay] at h
        rw [not_or] at hstay
        by_cases hup : segment = [dot, dot]
        · subst hup
          exact .up hdir (ih h)
        · rw [if_neg hup] at h
          have hname : ofSegment? segment = some (.name segment) := by
            rw [ofSegment?, if_neg hstay.1, if_neg hstay.2, if_neg hup]
          split at h
          · cases h
          · next target hentry =>
            by_cases hempty : target.raw = []
            · rw [if_pos hempty] at h
              cases h
            · rw [if_neg hempty] at h
              obtain ⟨fewer, rfl, hleads⟩ := hlink _ _ h
              exact .link hdir hname hentry hempty hleads
          · next hnolink hentry => exact .name hdir hname hentry hnolink (ih h)

/-- Following a path is following it with some way to go on at links. -/
theorem exists_follow_eq (t : FileTree) (links : Nat) :
    ∃ onLink, t.follow links = t.followWith onLink ∧
      ∀ fewer, links = fewer + 1 → onLink = t.follow fewer := by
  cases links with
  | zero => exact ⟨_, rfl, fun _ h => by cases h⟩
  | succ links => exact ⟨_, rfl, fun _ h => by cases h; rfl⟩

theorem not_stays_of_name (h : ofSegment? name = some (.name name)) :
    ¬ (name = [] ∨ name = [dot]) ∧ name ≠ [dot, dot] := by
  refine ⟨?_, ?_⟩
  · rw [← ofSegment?_eq_none_iff, h]
    exact Option.some_ne_none _
  · rintro rfl
    cases h

theorem follow_of_leads (h : Leads t links here segments found) :
    t.follow links here segments = .ok found := by
  induction h with
  | @done links here =>
    obtain ⟨onLink, heq, -⟩ := exists_follow_eq t links
    rw [heq, followWith]
  | @stay links here _ segment rest hdir hstay _ ih =>
    obtain ⟨onLink, heq, -⟩ := exists_follow_eq t links
    rw [heq] at ih ⊢
    simp only [followWith, hdir, if_pos hstay, ih]
  | @up links here _ rest hdir _ ih =>
    obtain ⟨onLink, heq, -⟩ := exists_follow_eq t links
    rw [heq] at ih ⊢
    simp only [followWith, hdir]
    exact ih
  | @name links here _ segment rest entry hdir hname hentry hnolink _ ih =>
    obtain ⟨onLink, heq, -⟩ := exists_follow_eq t links
    obtain ⟨hstay, hup⟩ := not_stays_of_name hname
    rw [heq] at ih ⊢
    cases entry with
    | link target => exact absurd rfl (hnolink target)
    | dir => simp only [followWith, hdir, if_neg hstay, if_neg hup, hentry, ih]
    | file content executable =>
      simp only [followWith, hdir, if_neg hstay, if_neg hup, hentry, ih]
  | @link links here _ segment rest target hdir hname hentry htarget _ ih =>
    obtain ⟨hstay, hup⟩ := not_stays_of_name hname
    rw [show t.follow (links + 1) = t.followWith (t.follow links) from rfl]
    simp only [followWith, hdir, if_neg hstay, if_neg hup, hentry, if_neg htarget, ih]

theorem follow_eq_ok_iff :
    t.follow links here segments = .ok found ↔ Leads t links here segments found := by
  refine ⟨fun h => ?_, follow_of_leads⟩
  induction links generalizing here segments with
  | zero => exact leads_of_followWith (fun _ _ h => by cases h) h
  | succ links ih => exact leads_of_followWith (fun _ _ h => ⟨links, rfl, ih h⟩) h

/-- Every place above this one holds a directory. -/
def Reached (t : FileTree) (place : Place) : Prop :=
  ∀ above, above <+: place → above ≠ place → t.entry? above = some .dir

theorem reached_top (t : FileTree) : t.Reached [] :=
  fun _ habove hne => absurd (List.prefix_nil.mp habove) hne

theorem Reached.dropLast (h : t.Reached here) : t.Reached here.dropLast := by
  intro above habove hne
  refine h above (habove.trans (List.dropLast_prefix here)) ?_
  rintro rfl
  exact hne (habove.eq_of_length_le (List.dropLast_prefix above).length_le)

theorem Reached.append (h : t.Reached here) (hdir : t.entry? here = some .dir) (name : RawText) :
    t.Reached (here ++ [name]) := by
  intro above habove hne
  rcases List.prefix_concat_iff.mp habove with rfl | habove
  · exact absurd rfl hne
  · by_cases hhere : above = here
    · exact hhere ▸ hdir
    · exact h above habove hhere

theorem Leads.reached (h : Leads t links here segments found) (hhere : t.Reached here) :
    t.Reached found := by
  induction h with
  | done => exact hhere
  | stay _ _ _ ih => exact ih hhere
  | up _ _ ih => exact ih hhere.dropLast
  | name hdir _ _ _ _ ih => exact ih (hhere.append hdir _)
  | link _ _ _ _ _ ih =>
    refine ih ?_
    split
    · exact reached_top t
    · exact hhere

/-- Where a way goes on from is where it led to, with some of the links used up. -/
theorem Leads.follow_append (h : Leads t links here segments found) :
    ∃ fewer, ∀ more : List RawText,
      t.follow links here (segments ++ more) = t.follow fewer found more := by
  induction h with
  | @done links here => exact ⟨links, fun _ => rfl⟩
  | @stay links here _ segment rest hdir hstay _ ih =>
    obtain ⟨fewer, hrest⟩ := ih
    obtain ⟨onLink, heq, -⟩ := exists_follow_eq t links
    refine ⟨fewer, fun more => ?_⟩
    rw [← hrest more, heq]
    simp only [List.cons_append, followWith, hdir, if_pos hstay]
  | @up links here _ rest hdir _ ih =>
    obtain ⟨fewer, hrest⟩ := ih
    obtain ⟨onLink, heq, -⟩ := exists_follow_eq t links
    refine ⟨fewer, fun more => ?_⟩
    rw [← hrest more, heq]
    simp only [List.cons_append, followWith, hdir]
    rfl
  | @name links here _ segment rest entry hdir hname hentry hnolink _ ih =>
    obtain ⟨fewer, hrest⟩ := ih
    obtain ⟨onLink, heq, -⟩ := exists_follow_eq t links
    obtain ⟨hstay, hup⟩ := not_stays_of_name hname
    refine ⟨fewer, fun more => ?_⟩
    rw [← hrest more, heq]
    cases entry with
    | link target => exact absurd rfl (hnolink target)
    | dir => simp only [List.cons_append, followWith, hdir, if_neg hstay, if_neg hup, hentry]
    | file content executable =>
      simp only [List.cons_append, followWith, hdir, if_neg hstay, if_neg hup, hentry]
  | @link links here _ segment rest target hdir hname hentry htarget _ ih =>
    obtain ⟨fewer, hrest⟩ := ih
    obtain ⟨hstay, hup⟩ := not_stays_of_name hname
    refine ⟨fewer, fun more => ?_⟩
    rw [← hrest more, show t.follow (links + 1) = t.followWith (t.follow links) from rfl]
    simp only [List.cons_append, followWith, hdir, if_neg hstay, if_neg hup, hentry,
      if_neg htarget, List.append_assoc]

theorem Leads.of_append {before more : List RawText}
    (h : Leads t links here (before ++ more) found) :
    ∃ between, Leads t links here before between := by
  generalize hall : before ++ more = all at h
  induction h generalizing before with
  | done =>
    obtain ⟨rfl, -⟩ := List.append_eq_nil_iff.mp hall
    exact ⟨_, .done⟩
  | stay hdir hstay _ ih =>
    rcases before with _ | ⟨segment, before⟩
    · exact ⟨_, .done⟩
    · obtain ⟨rfl, hrest⟩ := List.cons.inj hall
      obtain ⟨between, hleads⟩ := ih hrest
      exact ⟨between, .stay hdir hstay hleads⟩
  | up hdir _ ih =>
    rcases before with _ | ⟨segment, before⟩
    · exact ⟨_, .done⟩
    · obtain ⟨rfl, hrest⟩ := List.cons.inj hall
      obtain ⟨between, hleads⟩ := ih hrest
      exact ⟨between, .up hdir hleads⟩
  | name hdir hname hentry hnolink _ ih =>
    rcases before with _ | ⟨segment, before⟩
    · exact ⟨_, .done⟩
    · obtain ⟨rfl, hrest⟩ := List.cons.inj hall
      obtain ⟨between, hleads⟩ := ih hrest
      exact ⟨between, .name hdir hname hentry hnolink hleads⟩
  | @link _ _ _ _ _ target hdir hname hentry htarget _ ih =>
    rcases before with _ | ⟨segment, before⟩
    · exact ⟨_, .done⟩
    · obtain ⟨rfl, rfl⟩ := List.cons.inj hall
      -- The target takes the place of the segment, before what is left of the first list.
      obtain ⟨between, hleads⟩ := ih (List.append_assoc target.segments before more)
      exact ⟨between, .link hdir hname hentry htarget hleads⟩

/-- A way along two lists of segments leads through the place where the first one ends. From there
any other segments can be followed instead of the second one. -/
theorem Leads.exists_between {before more : List RawText}
    (h : Leads t links here (before ++ more) found) :
    ∃ fewer between, Leads t links here before between ∧ Leads t fewer between more found ∧
      ∀ {other : List RawText} {place : Place},
        Leads t fewer between other place → Leads t links here (before ++ other) place := by
  obtain ⟨between, hbefore⟩ := h.of_append
  obtain ⟨fewer, heq⟩ := hbefore.follow_append
  refine ⟨fewer, between, hbefore, ?_, fun {other} {place} hother => ?_⟩
  · rwa [← follow_eq_ok_iff, heq, follow_eq_ok_iff] at h
  · rwa [← follow_eq_ok_iff, heq, follow_eq_ok_iff]

/-- A way to a directory goes on with a name in it. -/
theorem Leads.concat (h : Leads t links here segments found) (hdir : t.entry? found = some .dir)
    (hname : ofSegment? name = some (.name name)) (hentry : t.entry? (found ++ [name]) = some entry)
    (hnolink : ∀ target, entry ≠ .link target) :
    Leads t links here (segments ++ [name]) (found ++ [name]) := by
  obtain ⟨fewer, heq⟩ := h.follow_append
  rw [← follow_eq_ok_iff, heq, follow_eq_ok_iff]
  exact .name hdir hname hentry hnolink .done

/-- Every segment is followed from a directory. -/
theorem Leads.isDir (h : Leads t links here (name :: segments) found) :
    t.entry? here = some .dir := by
  cases h <;> assumption

/-- A name is followed from a directory that has it. -/
theorem Leads.mem_names (h : Leads t links here (name :: segments) found)
    (hname : ofSegment? name = some (.name name)) : name ∈ t.names here := by
  cases h with
  | stay _ hstay => exact absurd hstay (not_stays_of_name hname).1
  | up => exact absurd rfl (not_stays_of_name hname).2
  | name _ _ hentry => exact mem_names_of_entry? hentry
  | link _ _ hentry => exact mem_names_of_entry? hentry

/-- A way to a name in a directory leads through the directory. -/
theorem Leads.exists_dir (h : Leads t links here (segments ++ [name]) found) :
    ∃ between, Leads t links here segments between ∧ t.entry? between = some .dir := by
  obtain ⟨fewer, between, hsegments, hname, -⟩ := h.exists_between
  exact ⟨between, hsegments, hname.isDir⟩

/-! ## Taking a file away -/

theorem lookup_filter (keep : Place → Bool) (entries : List (Place × Entry)) (place : Place) :
    (entries.filter fun e => keep e.1).lookup place =
      if keep place then entries.lookup place else none := by
  induction entries with
  | nil => simp
  | cons e entries ih =>
    obtain ⟨at_, entry⟩ := e
    by_cases hplace : place = at_
    · subst hplace
      by_cases hkeep : keep place <;> simp [hkeep, ih]
    · have hne : (place == at_) = false := by simpa using hplace
      by_cases hkeep : keep at_ <;> simp [hkeep, List.lookup_cons, hne, ih]

theorem entry?_drop (h : ¬ place <+: here) : entry? (t.drop place) here = t.entry? here := by
  have hkeep : (!place.isPrefixOf here) = true := by
    rw [Bool.not_eq_true', ← Bool.not_eq_true]
    exact fun hprefix => h (List.isPrefixOf_iff_prefix.mp hprefix)
  unfold entry? drop
  split
  · rfl
  · rw [lookup_filter fun p => !place.isPrefixOf p, hkeep, if_pos rfl]

theorem entry?_of_drop (h : FileTree.entry? (t.drop place) here = some entry) :
    t.entry? here = some entry := by
  unfold entry? drop at h
  unfold entry?
  split at h
  · next hnil => rwa [if_pos hnil]
  · next hne =>
    rw [lookup_filter fun p => !place.isPrefixOf p] at h
    split at h
    · rwa [if_neg hne]
    · cases h

theorem Leads.of_drop (h : Leads (t.drop place) links here segments found) :
    Leads t links here segments found := by
  induction h with
  | done => exact .done
  | stay hdir hstay _ ih => exact .stay (entry?_of_drop hdir) hstay ih
  | up hdir _ ih => exact .up (entry?_of_drop hdir) ih
  | name hdir hname hentry hnolink _ ih =>
    exact .name (entry?_of_drop hdir) hname (entry?_of_drop hentry) hnolink ih
  | link hdir hname hentry htarget _ ih =>
    exact .link (entry?_of_drop hdir) hname (entry?_of_drop hentry) htarget ih

section File

variable {content : List UInt8} {executable : Bool}
  (hfile : t.entry? place = some (.file content executable))

include hfile

/-- Nothing that is reached lies at or below the file, the file itself excepted. -/
theorem Reached.not_inside (h : t.Reached here) (hne : here ≠ place) : ¬ place <+: here := by
  intro hprefix
  have hdir := h place hprefix (Ne.symm hne)
  rw [hfile] at hdir
  cases hdir

theorem ne_of_entry?_dir (hdir : t.entry? here = some .dir) : here ≠ place := by
  rintro rfl
  rw [hfile] at hdir
  cases hdir

/-- From the file no segments lead on. -/
theorem Leads.eq_of_file (h : Leads t links place segments found) : found = place := by
  cases h with
  | done => rfl
  | stay hdir => exact absurd rfl (ne_of_entry?_dir hfile hdir)
  | up hdir => exact absurd rfl (ne_of_entry?_dir hfile hdir)
  | name hdir => exact absurd rfl (ne_of_entry?_dir hfile hdir)
  | link hdir => exact absurd rfl (ne_of_entry?_dir hfile hdir)

theorem Leads.drop (h : Leads t links here segments found) (hhere : t.Reached here)
    (hne : found ≠ place) : Leads (t.drop place) links here segments found := by
  have hkept : ∀ {here : Place}, t.Reached here → t.entry? here = some .dir →
      entry? (t.drop place) here = some .dir := fun hreached hdir => by
    rw [entry?_drop (hreached.not_inside hfile (ne_of_entry?_dir hfile hdir)), hdir]
  induction h with
  | done => exact .done
  | stay hdir hstay _ ih => exact .stay (hkept hhere hdir) hstay (ih hhere hne)
  | up hdir _ ih => exact .up (hkept hhere hdir) (ih hhere.dropLast hne)
  | @name _ here _ segment _ _ hdir hname hentry hnolink hrest ih =>
    have hreached := hhere.append hdir segment
    have hpast : here ++ [segment] ≠ place := by
      rintro rfl
      exact hne (hrest.eq_of_file hfile)
    refine .name (hkept hhere hdir) hname ?_ hnolink (ih hreached hne)
    rw [entry?_drop (hreached.not_inside hfile hpast), hentry]
  | @link _ here _ segment _ target hdir hname hentry htarget _ ih =>
    have hreached := hhere.append hdir segment
    have hpast : here ++ [segment] ≠ place := by
      rintro rfl
      rw [hfile] at hentry
      cases hentry
    refine .link (hkept hhere hdir) hname ?_ htarget (ih ?_ hne)
    · rw [entry?_drop (hreached.not_inside hfile hpast), hentry]
    · split
      · exact reached_top t
      · exact hhere

end File

/-! ## Paths -/

theorem follow_top (t : FileTree) (segments : List RawText) :
    t.follow maxLinks [] ([] :: segments) = t.follow maxLinks [] segments := by
  obtain ⟨onLink, heq, -⟩ := exists_follow_eq t maxLinks
  rw [heq]
  rfl

/-- A tidy path is followed along its components. -/
theorem find_ofComponents {cs : List Component} (h : ∀ c ∈ cs, c.Proper) :
    t.find (Path.ofComponents (.root :: cs)) = t.follow maxLinks [] (cs.map Component.raw) := by
  have hsegments : (Path.ofComponents (.root :: cs)).segments =
      [] :: Text.splitOn slash (Text.joinWith [slash] (cs.map Component.raw)) :=
    Path.segments_slash _
  have habsolute : (Path.ofComponents (.root :: cs)).isAbsolute = true := Path.isAbsolute_slash _
  rw [find, if_pos habsolute, hsegments, follow_top]
  by_cases hne : cs = []
  · subst hne
    exact follow_top t []
  · rw [Path.splitOn_joinWith_raw hne h]

theorem reached_of_find (hp : p.IsTidy) (h : t.find p = .ok found) : t.Reached found := by
  obtain ⟨cs, hcs, rfl⟩ := hp
  rw [find_ofComponents hcs, follow_eq_ok_iff] at h
  exact h.reached (reached_top t)

theorem find_child (hp : p.IsTidy) (hname : (Component.name name).Proper)
    (h : t.find p = .ok here) (hdir : t.entry? here = some .dir)
    (hentry : t.entry? (here ++ [name]) = some entry) (hnolink : ∀ target, entry ≠ .link target) :
    t.find (p.child name) = .ok (here ++ [name]) := by
  obtain ⟨cs, hcs, rfl⟩ := hp
  rw [find_ofComponents hcs, follow_eq_ok_iff] at h
  have hall : ∀ c ∈ cs ++ [Component.name name], c.Proper :=
    List.forall_mem_append.mpr ⟨hcs, List.forall_mem_singleton.mpr hname⟩
  rw [Path.child_ofComponents hcs hname, find_ofComponents hall, follow_eq_ok_iff, List.map_append]
  exact h.concat hdir hname.1 hentry hnolink

theorem isDir_of_find_child (hp : p.IsTidy) (hname : (Component.name name).Proper)
    (h : t.find (p.child name) = .ok found) : t.isDir p = true := by
  obtain ⟨cs, hcs, rfl⟩ := hp
  have hall : ∀ c ∈ cs ++ [Component.name name], c.Proper :=
    List.forall_mem_append.mpr ⟨hcs, List.forall_mem_singleton.mpr hname⟩
  rw [Path.child_ofComponents hcs hname, find_ofComponents hall, follow_eq_ok_iff,
    List.map_append] at h
  obtain ⟨between, hleads, hdir⟩ := h.exists_dir
  exact isDir_iff.mpr ⟨between, by rw [find_ofComponents hcs, follow_eq_ok_iff.mpr hleads], hdir⟩

/-- Taking away what is in a directory that a tidy path leads to. -/
theorem remove_child (hp : p.IsTidy) (hname : (Component.name name).Proper)
    (h : t.find p = .ok here) : t.remove (p.child name) = t.drop (here ++ [name]) := by
  obtain ⟨cs, hcs, rfl⟩ := hp
  have hall : ∀ c ∈ cs ++ [Component.name name], c.Proper :=
    List.forall_mem_append.mpr ⟨hcs, List.forall_mem_singleton.mpr hname⟩
  have hsegments : (Path.ofComponents (.root :: (cs ++ [.name name]))).segments =
      ([] :: cs.map Component.raw) ++ [name] := by
    refine (Path.segments_slash _).trans ?_
    rw [Path.splitOn_joinWith_raw (by simp) hall, List.map_append]
    rfl
  rw [find_ofComponents hcs] at h
  rw [Path.child_ofComponents hcs hname, remove, hsegments, List.reverse_append,
    List.reverse_singleton, List.singleton_append]
  dsimp only
  rw [List.reverse_reverse, follow_top, h]

theorem find_of_drop (h : (t.drop place).find p = .ok found) : t.find p = .ok found := by
  unfold find at h ⊢
  split at h
  · next hp =>
    rw [if_pos hp]
    exact follow_eq_ok_iff.mpr (follow_eq_ok_iff.mp h).of_drop
  · cases h

/-- Texts that can be read without a file are the same with it. -/
theorem readText_of_drop {text : Text} (h : (t.drop place).readText p = .ok text) :
    t.readText p = .ok text := by
  have hlookup : ∀ entry, (t.drop place).lookup p = .ok entry → t.lookup p = .ok entry := by
    intro entry h
    unfold lookup at h ⊢
    split at h
    · cases h
    · next found hfind =>
      rw [find_of_drop hfind]
      dsimp only
      split at h
      · next hentry =>
        rw [entry?_of_drop hentry]
        exact h
      · cases h
  unfold readText readBytes at h ⊢
  split at h
  · cases h
  · next content hcontent =>
    split at hcontent
    · next hfile =>
      obtain rfl := Except.ok.inj hcontent
      rw [hlookup _ hfile]
      exact h
    · cases hcontent
    · cases hcontent

/-! ## Names in a directory -/

theorem mem_names_drop_iff :
    name ∈ (t.drop place).names here ↔ name ∈ t.names here ∧ ¬ place <+: here ++ [name] := by
  rw [mem_names_iff, mem_names_iff]
  constructor
  · rintro ⟨e, he, heq⟩
    obtain ⟨he, hkeep⟩ := List.mem_filter.mp he
    rw [heq, Bool.not_eq_true', ← Bool.not_eq_true, List.isPrefixOf_iff_prefix] at hkeep
    exact ⟨⟨e, he, heq⟩, hkeep⟩
  · rintro ⟨⟨e, he, heq⟩, hkeep⟩
    refine ⟨e, List.mem_filter.mpr ⟨he, ?_⟩, heq⟩
    rwa [heq, Bool.not_eq_true', ← Bool.not_eq_true, List.isPrefixOf_iff_prefix]

/-- A name of short characters is listed just if the directory has it: no other name is shown like
that one. -/
theorem mem_listing_iff (hshort : Text.AreShort (Text.ofBytes name)) :
    Text.ofBytes name ∈ t.listing p ↔
      ∃ here, t.find p = .ok here ∧ t.entry? here = some .dir ∧ name ∈ t.names here := by
  have hnames : ∀ here, Text.ofBytes name ∈ (t.names here).map Text.ofBytes ↔
      name ∈ t.names here := by
    refine fun here => List.mem_map.trans ⟨fun ⟨other, hother, hshown⟩ => ?_, fun h => ⟨_, h, rfl⟩⟩
    have hother' := (Text.ofBytes_eq_iff hshort).mp hshown
    rwa [Text.toUtf8_ofBytes_of_short hshort, ← hother'] at *
  unfold listing
  split
  · next here hfind =>
    split
    · next hdir => simp [hfind, hdir, hnames]
    · next hdir => simp [hfind, hdir]
  · next hfind => simp [hfind]

section File

variable {content : List UInt8} {executable : Bool}
  (hfile : t.entry? place = some (.file content executable))

include hfile

theorem find_drop (hp : p.IsTidy) (h : t.find p = .ok found) (hne : found ≠ place) :
    (t.drop place).find p = .ok found := by
  obtain ⟨cs, hcs, rfl⟩ := hp
  rw [find_ofComponents hcs, follow_eq_ok_iff] at h ⊢
  exact h.drop hfile (reached_top t) hne

theorem entry?_drop_of_find (hp : p.IsTidy) (h : t.find p = .ok found) (hne : found ≠ place) :
    entry? (t.drop place) found = t.entry? found :=
  entry?_drop ((reached_of_find hp h).not_inside hfile hne)

/-- In a directory that a tidy path leads to, only names of paths to the file are missing. -/
theorem mem_names_drop (hp : p.IsTidy) (hname : (Component.name name).Proper)
    (h : t.find p = .ok here) (hdir : t.entry? here = some .dir)
    (hmem : name ∈ t.names here) (hne : t.find (p.child name) ≠ .ok place) :
    name ∈ (t.drop place).names here := by
  refine mem_names_drop_iff.mpr ⟨hmem, fun hprefix => ?_⟩
  rcases List.prefix_concat_iff.mp hprefix with rfl | hprefix
  · exact hne (find_child hp hname h hdir hfile fun _ heq => by cases heq)
  · exact (reached_of_find hp h).not_inside hfile (ne_of_entry?_dir hfile hdir) hprefix

theorem mem_listing_drop_iff (hp : p.IsTidy) (hname : (Component.name name).Proper)
    (hshort : Text.AreShort (Text.ofBytes name)) (hne : t.find (p.child name) ≠ .ok place) :
    Text.ofBytes name ∈ (t.drop place).listing p ↔ Text.ofBytes name ∈ t.listing p := by
  rw [mem_listing_iff hshort, mem_listing_iff hshort]
  constructor
  · rintro ⟨here, hfind, hdir, hmem⟩
    exact ⟨here, find_of_drop hfind, entry?_of_drop hdir, (mem_names_drop_iff.mp hmem).1⟩
  · rintro ⟨here, hfind, hdir, hmem⟩
    have hhere := ne_of_entry?_dir hfile hdir
    exact ⟨here, find_drop hfile hp hfind hhere,
      (entry?_drop_of_find hfile hp hfind hhere).trans hdir,
      mem_names_drop hfile hp hname hfind hdir hmem hne⟩

end File

/-! ## Walks -/

variable {enter : Path → Text → Bool} {depth : Nat} {inside : List Place} {path start file : Path}

/-- A file that is found in a directory is one of its entries, or in one of them that is a
directory and is entered. -/
theorem mem_filesInside_succ_iff :
    file ∈ t.filesInside enter (depth + 1) inside here path ↔
      ∃ name ∈ t.names here, ∃ found, t.find (path.child name) = .ok found ∧
        ((file = path.child name ∧ ∃ content executable,
            t.entry? found = some (.file content executable)) ∨
          (t.entry? found = some .dir ∧ (found ≠ here ++ [name] → found ∉ inside) ∧
            enter (path.child name) (Text.ofBytes name) = true ∧
              file ∈ t.filesInside enter depth (found :: inside) found (path.child name))) := by
  rw [filesInside, List.mem_flatMap]
  refine exists_congr fun name => and_congr_right fun _ => ?_
  dsimp only
  cases hfind : t.find (path.child name) with
  | error e => simp
  | ok found =>
    simp only [Except.ok.injEq, exists_eq_left']
    cases hentry : t.entry? found with
    | none => simp
    | some entry =>
      cases entry with
      | dir =>
        by_cases henter : enter (path.child name) (Text.ofBytes name) <;> simp [henter, and_comm]
      | file content executable => simp
      | link target => simp

theorem exists_find_of_mem_filesInside (h : file ∈ t.filesInside enter depth inside here path) :
    ∃ found content executable, t.find file = .ok found ∧
      t.entry? found = some (.file content executable) := by
  induction depth generalizing inside here path with
  | zero => exact absurd h List.not_mem_nil
  | succ depth ih =>
    obtain ⟨name, -, found, hfind, ⟨rfl, content, executable, hentry⟩ | ⟨-, -, -, hmem⟩⟩ :=
      mem_filesInside_succ_iff.mp h
    · exact ⟨found, content, executable, hfind, hentry⟩
    · exact ih hmem

theorem exists_find_of_mem_filesBelow (h : file ∈ t.filesBelow enter start) :
    ∃ found content executable, t.find file = .ok found ∧
      t.entry? found = some (.file content executable) := by
  unfold filesBelow at h
  split at h
  · exact absurd h List.not_mem_nil
  · next found hfind =>
    split at h
    · next hentry => exact List.mem_singleton.mp h ▸ ⟨found, _, _, hfind, hentry⟩
    · exact exists_find_of_mem_filesInside h
    · exact absurd h List.not_mem_nil

/-- A walk without a file finds nothing that it does not find with it. -/
theorem mem_filesInside_of_drop
    (h : file ∈ (t.drop place).filesInside enter depth inside here path) :
    file ∈ t.filesInside enter depth inside here path := by
  induction depth generalizing inside here path with
  | zero => exact h
  | succ depth ih =>
    obtain ⟨name, hname, found, hfind, hcases⟩ := mem_filesInside_succ_iff.mp h
    refine mem_filesInside_succ_iff.mpr
      ⟨name, (mem_names_drop_iff.mp hname).1, found, find_of_drop hfind, ?_⟩
    rcases hcases with ⟨heq, content, executable, hentry⟩ | ⟨hentry, hnew, henter, hmem⟩
    · exact .inl ⟨heq, content, executable, entry?_of_drop hentry⟩
    · exact .inr ⟨entry?_of_drop hentry, hnew, henter, ih hmem⟩

section File

variable {content : List UInt8} {executable : Bool}
  (hfile : t.entry? place = some (.file content executable))

include hfile

theorem mem_filesInside_drop (hproper : t.NamesProper) (hpath : path.IsTidy)
    (hfind : t.find path = .ok here) (hdir : t.entry? here = some .dir)
    (hne : t.find file ≠ .ok place) (h : file ∈ t.filesInside enter depth inside here path) :
    file ∈ (t.drop place).filesInside enter depth inside here path := by
  induction depth generalizing inside here path with
  | zero => exact h
  | succ depth ih =>
    obtain ⟨name, hmem, found, hchild, hcases⟩ := mem_filesInside_succ_iff.mp h
    have hname := hproper.of_mem_names hmem
    have htidy := hpath.child hname
    have hother : found ≠ place := by
      rintro rfl
      rcases hcases with ⟨rfl, -⟩ | ⟨hentry, -⟩
      · exact hne hchild
      · exact ne_of_entry?_dir hfile hentry rfl
    have hkept : entry? (t.drop place) found = t.entry? found :=
      entry?_drop_of_find hfile htidy hchild hother
    refine mem_filesInside_succ_iff.mpr ⟨name, mem_names_drop hfile hpath hname hfind hdir hmem
      (by simpa [hchild] using hother), found, find_drop hfile htidy hchild hother, ?_⟩
    rw [hkept]
    rcases hcases with hcase | ⟨hentry, hnew, henter, hmem⟩
    · exact .inl hcase
    · exact .inr ⟨hentry, hnew, henter, ih htidy hchild hentry hmem⟩

theorem entry?_drop_self : entry? (t.drop place) place = none := by
  have hplace : place ≠ [] := by
    rintro rfl
    cases hfile
  rw [FileTree.entry?, if_neg hplace, drop, lookup_filter fun p => !place.isPrefixOf p,
    List.isPrefixOf_iff_prefix.mpr (List.prefix_refl place)]
  rfl

/-- A walk without a file misses the paths that lead to it, and no others. -/
theorem mem_filesBelow_drop_iff (hproper : t.NamesProper) (hstart : start.IsTidy) :
    file ∈ (t.drop place).filesBelow enter start ↔
      file ∈ t.filesBelow enter start ∧ t.find file ≠ .ok place := by
  -- The two walks have bounds of their own; both are large enough for any larger one.
  have hbounds : ∀ (t : FileTree) (more : Nat) (here : Place), t.walkDepth ≤ more →
      t.filesInside enter t.walkDepth [here] here start =
        t.filesInside enter more [here] here start := fun t more here hmore =>
    (filesInside_eq_of_le (room_lt_walkDepth t [here] here) hmore).symm
  have hleft := Nat.le_max_left t.walkDepth (t.drop place).walkDepth
  have hright := Nat.le_max_right t.walkDepth (t.drop place).walkDepth
  constructor
  · intro h
    constructor
    · unfold filesBelow at h ⊢
      split at h
      · exact absurd h List.not_mem_nil
      · next here hfind =>
        rw [find_of_drop hfind]
        dsimp only
        split at h
        · next hentry =>
          rw [entry?_of_drop hentry]
          exact h
        · next hentry =>
          rw [entry?_of_drop hentry]
          dsimp only
          rw [hbounds t _ here hleft]
          rw [hbounds _ _ here hright] at h
          exact mem_filesInside_of_drop h
        · exact absurd h List.not_mem_nil
    · intro hplace
      obtain ⟨found, _, _, hfind, hentry⟩ := exists_find_of_mem_filesBelow h
      rw [find_of_drop hfind] at hplace
      obtain rfl := Except.ok.inj hplace
      rw [entry?_drop_self hfile] at hentry
      cases hentry
  · rintro ⟨h, hne⟩
    unfold filesBelow at h ⊢
    split at h
    · exact absurd h List.not_mem_nil
    · next here hfind =>
      have hother : here ≠ place := by
        rintro rfl
        rw [hfile] at h
        exact hne (List.mem_singleton.mp h ▸ hfind)
      rw [find_drop hfile hstart hfind hother]
      dsimp only
      rw [entry?_drop_of_find hfile hstart hfind hother]
      split at h
      · exact h
      · next hentry =>
        rw [hbounds _ _ here hright]
        rw [hbounds t _ here hleft] at h
        exact mem_filesInside_drop hfile hproper hstart hfind hentry hne h
      · exact absurd h List.not_mem_nil

end File

end Typesweep.FileTree

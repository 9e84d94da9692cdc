import RainCall.Hash.Object

/-!
# The dict of a hash and its private ebuckets

`HashTable.WF` is the invariant of the dict encoding: the dict holds exactly the live entries, their
fields are distinct, and the ebuckets hold exactly the entries with an expiry time. Every function
of `t_hash.c` on a dict is a sequence of steps that keep the invariant: remove the expiry time of an
entry, update an entry that has none and replace its pointer in the dict, add an expiry time to an
entry that has none, add or delete an entry.
-/

namespace RainCall

open Function Option
open List hiding any_eq_true pure_def

/-- The plain map that a hash stands for: the value and the expiry time of each field. -/
abbrev TtlMap := Bytes → Option (Bytes × Option ℕ)

/-- Set the value of a field, with or without its old expiry time. -/
def ttlSet (m : TtlMap) (f v : Bytes) (keepTtl : Bool) : TtlMap :=
  Function.update m f (some (v, if keepTtl then (m f).bind Prod.snd else none))

/-- Set or remove the expiry time of a field. A time in the past deletes the field on a master; the
dict encoding (`isHT`) leaves a field alone that has this very time already. -/
def ttlSetEx (isHT : Bool) (ctx : HashCtx) (m : TtlMap) (cond : ExpireSetCond) (f : Bytes)
    (expireAt : Option ℕ) : TtlMap × SetExRes :=
  match m f, expireAt with
  | none, _ => (m, .noField)
  | some (_, none), none => (m, .noConditionMet)
  | some (v, some _), none => (Function.update m f (some (v, none)), .ok)
  | some (v, prev), some t =>
    if !cond.allows prev t then (m, .noConditionMet)
    else if isHT && prev == some t then (m, .ok)
    else if ctx.alreadyExpired t then (Function.update m f none, .deleted)
    else (Function.update m f (some (v, some t)), .ok)

lemma ttlSetEx_of_some {m : TtlMap} {f v : Bytes} {prev : Option ℕ}
    (hm : m f = some (v, prev)) (isHT : Bool) (ctx : HashCtx) (cond : ExpireSetCond) (t : ℕ) :
    ttlSetEx isHT ctx m cond f (some t) =
      if !cond.allows prev t then (m, .noConditionMet)
      else if isHT && prev == some t then (m, .ok)
      else if ctx.alreadyExpired t then (update m f none, .deleted)
      else (update m f (some (v, some t)), .ok) := by
  unfold ttlSetEx
  rw [hm]
  cases prev <;> rfl

/-- Where the time is not too late, the encoding does not matter: a field that has this very time is
set to it again. -/
lemma ttlSetEx_some_of_not_expired {m : TtlMap} {f v : Bytes} {prev : Option ℕ}
    (hm : m f = some (v, prev)) {ctx : HashCtx} {t : ℕ} (ht : ctx.alreadyExpired t = false)
    (isHT : Bool) (cond : ExpireSetCond) :
    ttlSetEx isHT ctx m cond f (some t) =
      if cond.allows prev t then (update m f (some (v, some t)), .ok)
      else (m, .noConditionMet) := by
  rw [ttlSetEx_of_some hm, ht]
  by_cases hsame : (isHT && prev == some t) = true
  · obtain ⟨-, rfl⟩ : isHT = true ∧ prev = some t := by simpa using hsame
    have hself : update m f (some (v, some t)) = m := by rw [update_eq_self_iff, hm]
    cases cond.allows (some t) t <;> simp [hself]
  · cases cond.allows prev t <;> simp [hsame]

namespace HashTable

variable {h h' : HashTable} {p : ℕ} {e : HashEntry} {f : Bytes}

/-- The invariant of the dict encoding. -/
structure WF (h : HashTable) : Prop where
  mem_dict : ∀ p, p ∈ h.dict ↔ (h.heap p).isSome
  nodup : h.dict.Nodup
  fresh : ∀ p, h.brk ≤ p → h.heap p = none
  field_inj : ∀ p q e e', h.heap p = some e → h.heap q = some e' → e.field = e'.field → p = q
  hfe_nodup : (h.hfe.getD []).Nodup
  /-- The ebuckets hold exactly the entries with an expiry time. -/
  mem_hfe : ∀ p, p ∈ h.hfe.getD [] ↔ ∃ e, h.heap p = some e ∧ e.expiry.isSome

/-- The map of a dict. -/
def map (h : HashTable) : TtlMap := fun f =>
  (h.find f).bind fun p => (h.heap p).map fun e => (e.value, e.expiry)

section

variable (hw : h.WF)
include hw

lemma WF.lt_brk (hp : h.heap p = some e) : p < h.brk := by
  by_contra hge
  rw [hw.fresh p (by omega)] at hp
  cases hp

lemma WF.find_eq_some_iff :
    h.find f = some p ↔ ∃ e, h.heap p = some e ∧ e.field = f := by
  constructor
  · intro hfind
    have hpred := find?_some hfind
    simpa [any_eq_true] using hpred
  · rintro ⟨e, hp, rfl⟩
    have hsome : (h.dict.find? fun q => (h.heap q).any (·.field == e.field)).isSome := by
      rw [find?_isSome]
      exact ⟨p, (hw.mem_dict p).mpr (by simp [hp]), by simp [hp]⟩
    obtain ⟨q, hq⟩ := isSome_iff_exists.mp hsome
    have hpred := find?_some hq
    obtain ⟨e', he', hfield⟩ : ∃ e', h.heap q = some e' ∧ e'.field = e.field := by
      simpa [any_eq_true] using hpred
    rw [find, hq, hw.field_inj q p e' e he' hp hfield]

lemma WF.find_eq_none_iff :
    h.find f = none ↔ ∀ p e, h.heap p = some e → e.field ≠ f := by
  constructor
  · intro hnone p e hp hfield
    rw [hw.find_eq_some_iff.mpr ⟨e, hp, hfield⟩] at hnone
    cases hnone
  · intro hall
    by_contra hne
    obtain ⟨p, hp⟩ := ne_none_iff_exists'.mp hne
    obtain ⟨e, he, hfield⟩ := hw.find_eq_some_iff.mp hp
    exact hall p e he hfield

lemma WF.map_of_heap (hp : h.heap p = some e) :
    h.map e.field = some (e.value, e.expiry) := by
  rw [map, hw.find_eq_some_iff.mpr ⟨e, hp, rfl⟩, bind_some, hp, map_some]

lemma WF.map_eq_none_iff :
    h.map f = none ↔ ∀ p e, h.heap p = some e → e.field ≠ f := by
  rw [← hw.find_eq_none_iff]
  constructor
  · intro hnone
    by_contra hne
    obtain ⟨p, hp⟩ := ne_none_iff_exists'.mp hne
    obtain ⟨e, he, rfl⟩ := hw.find_eq_some_iff.mp hp
    rw [hw.map_of_heap he] at hnone
    cases hnone
  · intro hnone
    rw [map, hnone, bind_none]

/-- The map at a field depends on the entries of the field only. -/
lemma WF.map_congr (hw' : h'.WF)
    (hsame : ∀ p e, e.field = f → (h.heap p = some e ↔ h'.heap p = some e)) :
    h'.map f = h.map f := by
  cases hfind : h.find f with
  | none =>
    have hnone := hw.find_eq_none_iff.mp hfind
    rw [hw.map_eq_none_iff.mpr hnone, hw'.map_eq_none_iff]
    intro p e hp hfield
    exact hnone p e ((hsame p e hfield).mpr hp) hfield
  | some p =>
    obtain ⟨e, hp, rfl⟩ := hw.find_eq_some_iff.mp hfind
    rw [hw.map_of_heap hp, hw'.map_of_heap ((hsame p e rfl).mp hp)]

lemma WF.map_eq_update (hw' : h'.WF) (hp : h'.heap p = some e)
    (hsame : ∀ q e', e'.field ≠ e.field → (h.heap q = some e' ↔ h'.heap q = some e')) :
    h'.map = update h.map e.field (some (e.value, e.expiry)) := by
  funext g
  by_cases hg : g = e.field
  · subst hg
    rw [update_self, hw'.map_of_heap hp]
  · rw [update_of_ne hg]
    exact hw.map_congr hw' fun q e' he' => hsame q e' (he' ▸ hg)

/-- An entry without a valid expiry time is not in the ebuckets. -/
lemma WF.not_mem_hfe (hp : h.heap p = some e) (he : e.expiry = none) :
    p ∉ h.hfe.getD [] := by
  intro hmem
  obtain ⟨e', he', hexp⟩ := (hw.mem_hfe p).mp hmem
  rw [hp] at he'
  cases he'
  rw [he] at hexp
  cases hexp

/-! ### Rewriting an entry in place -/

/-- Rewriting an entry in place keeps the invariant if the field stays and the ebuckets follow. -/
lemma WF.rewrite (hp : h.heap p = some e) {e' : HashEntry} (hfield : e'.field = e.field)
    (hheap : h'.heap = update h.heap p (some e')) (hbrk : h'.brk = h.brk)
    (hdict : h'.dict = h.dict) (hnodup : (h'.hfe.getD []).Nodup)
    (hmem : ∀ q, q ∈ h'.hfe.getD [] ↔ (q = p ∧ e'.expiry.isSome) ∨ (q ≠ p ∧ q ∈ h.hfe.getD [])) :
    h'.WF ∧ h'.map = update h.map e.field (some (e'.value, e'.expiry)) := by
  have hw' : h'.WF := by
    refine ⟨fun q => ?_, hdict ▸ hw.nodup, fun q hq => ?_, fun q r e1 e2 hq hr => ?_, hnodup,
      fun q => ?_⟩
    · rw [hdict, hw.mem_dict, hheap]
      by_cases hq : q = p
      · simp [hq, hp]
      · rw [update_of_ne hq]
    · rw [hbrk] at hq
      have hne : q ≠ p := by
        rintro rfl
        exact absurd (hw.lt_brk hp) (by omega)
      rw [hheap, update_of_ne hne, hw.fresh q hq]
    · have hlift (s : ℕ) (e3 : HashEntry) (hs : h'.heap s = some e3) :
          ∃ e4, h.heap s = some e4 ∧ e4.field = e3.field := by
        rw [hheap] at hs
        by_cases hsp : s = p
        · subst hsp
          rw [update_self] at hs
          cases hs
          exact ⟨e, hp, hfield.symm⟩
        · rw [update_of_ne hsp] at hs
          exact ⟨e3, hs, rfl⟩
      obtain ⟨e1', h1, hf1⟩ := hlift q e1 hq
      obtain ⟨e2', h2, hf2⟩ := hlift r e2 hr
      intro heq
      exact hw.field_inj q r e1' e2' h1 h2 (by rw [hf1, hf2, heq])
    · rw [hmem, hheap]
      by_cases hq : q = p
      · simp [hq]
      · simp [hq, hw.mem_hfe]
  refine ⟨hw', ?_⟩
  rw [← hfield]
  refine hw.map_eq_update hw' (by rw [hheap, update_self]) fun q e1 hne => ?_
  rw [hheap]
  by_cases hq : q = p
  · subst hq
    rw [update_self, hp]
    constructor
    · intro heq
      cases heq
      exact absurd hfield.symm hne
    · intro heq
      cases heq
      exact absurd rfl hne
  · rw [update_of_ne hq]

/-- The ebuckets exist if some entry has an expiry time. -/
lemma WF.exists_hfe (hp : h.heap p = some e) (hexp : e.expiry.isSome) :
    ∃ b, h.hfe = some b ∧ p ∈ b ∧ b.Nodup := by
  have hmem : p ∈ h.hfe.getD [] := (hw.mem_hfe p).mpr ⟨e, hp, hexp⟩
  have hnodup := hw.hfe_nodup
  cases hh : h.hfe with
  | none => simp [hh] at hmem
  | some b =>
    rw [hh] at hmem hnodup
    exact ⟨b, rfl, hmem, hnodup⟩

lemma WF.hfieldPersist_spec (hp : h.heap p = some e) :
    ∃ h1 e1, h.hfieldPersist p = some h1 ∧ h1.WF ∧ h1.heap p = some e1 ∧ e1.field = e.field ∧
      e1.value = e.value ∧ e1.hasExpiry = e.hasExpiry ∧ e1.expiry = none ∧
      h1.hfe.isSome = h.hfe.isSome ∧
      h1.map = update h.map e.field (some (e.value, none)) := by
  cases hexp : e.expiry with
  | none =>
    refine ⟨h, e, by simp [hfieldPersist, hp, hexp], hw, hp, rfl, rfl, rfl, hexp, rfl, ?_⟩
    rw [eq_comm, update_eq_self_iff, hw.map_of_heap hp, hexp]
  | some t =>
    obtain ⟨b, hb, hpb, hbn⟩ := hw.exists_hfe hp (by simp [hexp])
    have hexp1 : ({ e with trash := true } : HashEntry).expiry = none := by simp [HashEntry.expiry]
    have h1 := @WF.rewrite h { h.store p { e with trash := true } with hfe := some (b.erase p) }
      p e hw hp { e with trash := true } rfl rfl rfl rfl (hbn.erase p) (fun q => by
        rw [hexp1, getD_some, hbn.mem_erase_iff, hb]
        simp)
    refine ⟨_, { e with trash := true }, ?_, h1.1, by simp [store], rfl, rfl, rfl, hexp1,
      by simp [hb], hexp1 ▸ h1.2⟩
    simp [hfieldPersist, ebRemove, hp, hexp, hb, hpb]

lemma WF.ebAdd_spec (hp : h.heap p = some e) (hroom : e.hasExpiry = true) (hexp : e.expiry = none)
    (hhfe : h.hfe.isSome) {t : ℕ} (ht : t ≤ ebExpireTimeMax) :
    ∃ h1, h.ebAdd p t = some h1 ∧ h1.WF ∧ h1.hfe.isSome ∧
      h1.map = update h.map e.field (some (e.value, some t)) := by
  obtain ⟨b, hb⟩ := isSome_iff_exists.mp hhfe
  have hpb : p ∉ b := by simpa [hb] using hw.not_mem_hfe hp hexp
  have hbn : b.Nodup := by simpa [hb] using hw.hfe_nodup
  have hlt : t < 2 ^ 48 := Nat.lt_of_le_pred (by decide) ht
  have hexp1 :
      ({ e with trash := false, expireTime := .ofNat _ t } : HashEntry).expiry = some t := by
    simpa [HashEntry.expiry, hroom] using hlt
  have h1 := @WF.rewrite h
    { h.store p { e with trash := false, expireTime := .ofNat _ t } with hfe := some (p :: b) }
    p e hw hp { e with trash := false, expireTime := .ofNat _ t } rfl rfl rfl rfl
    (nodup_cons.mpr ⟨hpb, hbn⟩) (fun q => by
      rw [hexp1, hb]
      by_cases hq : q = p
      · simp [hq]
      · simp [hq])
  exact ⟨_, by simp [ebAdd, hb, hp, hroom, hpb, ht], h1.1, rfl, hexp1 ▸ h1.2⟩

/-! ### Deleting, adding and moving an entry -/

/-- The heap without the entry at `p`. -/
lemma WF.remove (hp : h.heap p = some e) (hheap : h'.heap = update h.heap p none)
    (hbrk : h'.brk = h.brk) (hdict : h'.dict = h.dict.erase p) (hnodup : (h'.hfe.getD []).Nodup)
    (hmem : ∀ q, q ∈ h'.hfe.getD [] ↔ q ≠ p ∧ q ∈ h.hfe.getD []) :
    h'.WF ∧ h'.map = update h.map e.field none := by
  have hlift (q : ℕ) (e' : HashEntry) (hq : h'.heap q = some e') : q ≠ p ∧ h.heap q = some e' := by
    rw [hheap] at hq
    by_cases hqp : q = p
    · subst hqp
      rw [update_self] at hq
      cases hq
    · rw [update_of_ne hqp] at hq
      exact ⟨hqp, hq⟩
  have hw' : h'.WF := by
    refine ⟨fun q => ?_, hdict ▸ hw.nodup.erase p, fun q hq => ?_,
      fun q r e1 e2 hq hr => ?_, hnodup,
      fun q => ?_⟩
    · rw [hdict, hw.nodup.mem_erase_iff, hheap]
      by_cases hq : q = p
      · simp [hq]
      · simp [hq, hw.mem_dict]
    · rw [hheap]
      by_cases hqp : q = p
      · simp [hqp]
      · rw [update_of_ne hqp, hw.fresh q (hbrk ▸ hq)]
    · exact hw.field_inj q r e1 e2 (hlift q e1 hq).2 (hlift r e2 hr).2
    · rw [hmem, hw.mem_hfe, hheap]
      by_cases hq : q = p
      · simp [hq]
      · simp [hq]
  refine ⟨hw', funext fun g => ?_⟩
  by_cases hg : g = e.field
  · subst hg
    rw [update_self, hw'.map_eq_none_iff]
    intro q e' hq hfield
    obtain ⟨hne, hq⟩ := hlift q e' hq
    exact hne (hw.field_inj q p e' e hq hp hfield)
  · rw [update_of_ne hg]
    refine hw.map_congr hw' fun q e' he' => ⟨fun hq => ?_, fun hq => (hlift q e' hq).2⟩
    have hne : q ≠ p := by
      rintro rfl
      rw [hp] at hq
      cases hq
      exact hg he'.symm
    rw [hheap, update_of_ne hne, hq]

lemma WF.delete_spec (hp : h.heap p = some e) :
    ∃ h1, h.delete e.field = some (h1, true) ∧ h1.WF ∧ h1.hfe.isSome = h.hfe.isSome ∧
      h1.map = update h.map e.field none := by
  have hfind : h.find e.field = some p := hw.find_eq_some_iff.mpr ⟨e, hp, rfl⟩
  cases hexp : e.expiry with
  | none =>
    have h1 : ({ h with
        heap := update h.heap p none, dict := h.dict.erase p } : HashTable).WF ∧ _ :=
      hw.remove hp rfl rfl rfl hw.hfe_nodup fun q =>
        ⟨fun hq => ⟨fun hqp => hw.not_mem_hfe hp hexp (hqp ▸ hq), hq⟩, And.right⟩
    exact ⟨_, by simp [delete, hfind, hp, hexp, entryFree], h1.1, rfl, h1.2⟩
  | some t =>
    obtain ⟨b, hb, hpb, hbn⟩ := hw.exists_hfe hp (by simp [hexp])
    have h1 : ({ h with
        heap := update h.heap p none
        dict := h.dict.erase p
        hfe := some (b.erase p) } : HashTable).WF ∧ _ :=
      hw.remove hp rfl rfl rfl (hbn.erase p) fun q => by
        rw [getD_some, hbn.mem_erase_iff, hb, getD_some]
    refine ⟨_, ?_, h1.1, by simp [hb], h1.2⟩
    simp [delete, hfind, hp, hexp, ebRemove, hb, hpb, entryFree, store]

lemma WF.delete_of_map (hf : h.map f = none) : h.delete f = some (h, false) := by
  rw [delete, hw.find_eq_none_iff.mpr (hw.map_eq_none_iff.mp hf)]

lemma WF.insert (hf : h.map e.field = none) (he : e.expiry = none)
    (hheap : h'.heap = update h.heap h.brk (some e)) (hbrk : h'.brk = h.brk + 1)
    (hdict : h'.dict.Perm (h.brk :: h.dict)) (hhfe : h'.hfe = h.hfe) :
    h'.WF ∧ h'.map = update h.map e.field (some (e.value, none)) := by
  have hfree : h.heap h.brk = none := hw.fresh h.brk le_rfl
  have hnot : h.brk ∉ h.dict := fun hmem => by simp [hw.mem_dict, hfree] at hmem
  have hnone := hw.map_eq_none_iff.mp hf
  have hlift (q : ℕ) (e' : HashEntry) (hq : h'.heap q = some e') :
      (q = h.brk ∧ e' = e) ∨ h.heap q = some e' := by
    rw [hheap] at hq
    by_cases hqb : q = h.brk
    · rw [hqb, update_self] at hq
      cases hq
      exact .inl ⟨hqb, rfl⟩
    · rw [update_of_ne hqb] at hq
      exact .inr hq
  have hw' : h'.WF := by
    refine ⟨fun q => ?_, hdict.nodup_iff.mpr (nodup_cons.mpr ⟨hnot, hw.nodup⟩), fun q hq => ?_,
      fun q r e1 e2 hq hr hfield => ?_, hhfe ▸ hw.hfe_nodup, fun q => ?_⟩
    · rw [hdict.mem_iff, hheap]
      by_cases hq : q = h.brk
      · simp [hq]
      · simp [hq, hw.mem_dict]
    · rw [hheap, update_of_ne (by omega), hw.fresh q (by omega)]
    · rcases hlift q e1 hq with ⟨hqb, he1⟩ | hq' <;> rcases hlift r e2 hr with ⟨hrb, he2⟩ | hr'
      · rw [hqb, hrb]
      · exact absurd (he1 ▸ hfield.symm) (hnone r e2 hr')
      · exact absurd (he2 ▸ hfield) (hnone q e1 hq')
      · exact hw.field_inj q r e1 e2 hq' hr' hfield
    · rw [hhfe, hw.mem_hfe, hheap]
      by_cases hq : q = h.brk
      · simp [hq, hfree, he]
      · simp [hq]
  refine ⟨hw', ?_⟩
  rw [← he]
  refine hw.map_eq_update hw' (by rw [hheap, update_self]) fun q e' hne => ?_
  refine ⟨fun hq => ?_, fun hq => ?_⟩
  · have hqb : q ≠ h.brk := by
      rintro rfl
      rw [hfree] at hq
      cases hq
    rw [hheap, update_of_ne hqb, hq]
  · rcases hlift q e' hq with ⟨-, rfl⟩ | hq
    · exact absurd rfl hne
    · exact hq

/-- `dictAdd` of a new field. -/
lemma WF.add_spec (hf : h.map f = none) (v : Bytes) (hasExpiry : Bool) :
    ∃ h1, h.add f v hasExpiry = some (h1, h.brk) ∧ h1.WF ∧
      h1.heap h.brk = some ⟨f, v, hasExpiry, true, 0⟩ ∧ h1.hfe = h.hfe ∧
      h1.map = update h.map f (some (v, none)) := by
  have h1 : ({ h with
      heap := update h.heap h.brk (some ⟨f, v, hasExpiry, true, 0⟩)
      brk := h.brk + 1
      dict := h.dict ++ [h.brk] } : HashTable).WF ∧ _ :=
    hw.insert hf (by simp [HashEntry.expiry]) rfl rfl
      (perm_append_singleton h.brk h.dict) rfl
  refine ⟨_, ?_, h1.1, by simp, rfl, h1.2⟩
  rw [add, hw.find_eq_none_iff.mpr (hw.map_eq_none_iff.mp hf)]
  rfl

end

/-- Replacing one element of a list by another. -/
lemma perm_map_replace {d : List ℕ} (hd : d.Nodup) {p p' : ℕ} (hp : p ∈ d) :
    (d.map fun q => if q = p then p' else q).Perm (p' :: d.erase p) := by
  induction d with
  | nil => cases hp
  | cons q d ih =>
    rw [nodup_cons] at hd
    by_cases hq : q = p
    · subst hq
      have hid : (d.map fun r => if r = q then p' else r) = d := by
        refine (map_congr_left fun r hr => if_neg ?_).trans (map_id d)
        rintro rfl
        exact hd.1 hr
      rw [map_cons, if_pos rfl, erase_cons_head, hid]
    · have hpd : p ∈ d := (mem_cons.mp hp).resolve_left (Ne.symm hq)
      rw [map_cons, if_neg hq, erase_cons_tail (by simpa using hq)]
      exact ((ih hd.2 hpd).cons q).trans (List.Perm.swap p' q _)

/-- An entry without an expiry time moves to a new address, where it may change. -/
lemma WF.move (hw : h.WF) (hp : h.heap p = some e) (hexp : e.expiry = none) {e' : HashEntry}
    (hfield : e'.field = e.field) (hexp' : e'.expiry = none)
    (hheap : h'.heap = update (update h.heap h.brk (some e')) p none) (hbrk : h'.brk = h.brk + 1)
    (hdict : h'.dict = h.dict.map fun q => if q = p then h.brk else q) (hhfe : h'.hfe = h.hfe) :
    h'.WF ∧ h'.map = update h.map e.field (some (e'.value, none)) := by
  have hpb : h.brk ≠ p := (hw.lt_brk hp).ne'
  -- The same as deleting the entry and inserting the new one.
  have h1 : ({ h with
      heap := update h.heap p none, dict := h.dict.erase p } : HashTable).WF ∧ _ :=
    hw.remove hp rfl rfl rfl hw.hfe_nodup fun q =>
      ⟨fun hq => ⟨fun hqp => hw.not_mem_hfe hp hexp (hqp ▸ hq), hq⟩, And.right⟩
  have h2 := @WF.insert _ h' e' h1.1 (by rw [h1.2, hfield, update_self]) hexp'
    (by rw [hheap, update_comm hpb]) hbrk
    (hdict ▸ perm_map_replace hw.nodup ((hw.mem_dict p).mpr (by simp [hp]))) hhfe
  refine ⟨h2.1, ?_⟩
  rw [h2.2, h1.2, hfield, update_idem]

lemma WF.store_value (hw : h.WF) (hp : h.heap p = some e) (hexp : e.expiry = none)
    (v : Bytes) :
    (h.store p { e with value := v }).WF ∧
      (h.store p { e with value := v }).map = update h.map e.field (some (v, none)) := by
  have hexp' : ({ e with value := v } : HashEntry).expiry = none := hexp
  have h1 := @WF.rewrite h (h.store p { e with value := v }) p e hw hp { e with value := v } rfl rfl
    rfl rfl hw.hfe_nodup (fun q => by
      rw [hexp']
      refine ⟨fun hq => .inr ⟨fun hqp => hw.not_mem_hfe hp hexp (hqp ▸ hq), hq⟩, fun hq => ?_⟩
      exact (hq.resolve_left (by simp)).2)
  exact ⟨h1.1, hexp' ▸ h1.2⟩

lemma setKeyAtLink_self (h : HashTable) (p : ℕ) : h.setKeyAtLink p p = h := by
  have hmap : (fun q => if q = p then p else q) = id := by
    funext q
    split_ifs with hq
    · exact hq.symm
    · rfl
  rw [setKeyAtLink, hmap, List.map_id]

/-- `entryUpdate` of an entry without an expiry time, followed by the update of its pointer. -/
lemma WF.entryUpdate_spec (hw : h.WF) (cfg : HashConfig) (hp : h.heap p = some e)
    (hexp : e.expiry = none) (value : Option Bytes) (hasExpiry : Bool) :
    ∃ h1 p' e', h.entryUpdate cfg p value hasExpiry = some (h1, p') ∧
      (h1.setKeyAtLink p p').WF ∧ (h1.setKeyAtLink p p').heap p' = some e' ∧
      e'.field = e.field ∧ e'.value = value.getD e.value ∧ e'.hasExpiry = hasExpiry ∧
      e'.expiry = none ∧ h1.hfe = h.hfe ∧
      (h1.setKeyAtLink p p').map =
        update h.map e.field (some (value.getD e.value, none)) := by
  have hunfold : h.entryUpdate cfg p value hasExpiry =
      if value.isNone && !(e.hasExpiry != hasExpiry) then some (h, p)
      else if (e.hasExpiry != hasExpiry) ||
          (value.isSome && cfg.needsNewAlloc e (value.getD e.value)) then
        some ((h.entryCreate e.field (value.getD e.value) hasExpiry).1.entryFree p, h.brk)
      else some (h.store p { e with value := value.getD e.value }, p) := by
    rw [entryUpdate, hp]
    simp only [bind_eq_bind, bind_some, entryCreate]
    split_ifs <;> rfl
  rw [hunfold]
  by_cases hnothing : (value.isNone && !(e.hasExpiry != hasExpiry)) = true
  · rw [if_pos hnothing]
    obtain ⟨hvalue, hroom⟩ : value = none ∧ e.hasExpiry = hasExpiry := by simpa using hnothing
    subst hvalue
    refine ⟨h, p, e, rfl, ?_⟩
    rw [setKeyAtLink_self]
    refine ⟨hw, hp, rfl, rfl, hroom, hexp, rfl, ?_⟩
    rw [eq_comm, update_eq_self_iff, hw.map_of_heap hp, hexp]
    rfl
  · rw [if_neg hnothing]
    by_cases hmove : ((e.hasExpiry != hasExpiry) ||
        (value.isSome && cfg.needsNewAlloc e (value.getD e.value))) = true
    · rw [if_pos hmove]
      have hpb : h.brk ≠ p := (hw.lt_brk hp).ne'
      have hmoved := @WF.move h
        (((h.entryCreate e.field (value.getD e.value) hasExpiry).1.entryFree p).setKeyAtLink p
          h.brk)
        p e hw hp hexp ⟨e.field, value.getD e.value, hasExpiry, true, 0⟩ rfl
        (by simp [HashEntry.expiry]) rfl rfl rfl rfl
      refine ⟨_, _, ⟨e.field, value.getD e.value, hasExpiry, true, 0⟩, rfl, hmoved.1, ?_, rfl, rfl,
        rfl, by simp [HashEntry.expiry], rfl, hmoved.2⟩
      simp [setKeyAtLink, entryFree, entryCreate, hpb]
    · rw [if_neg hmove]
      have hroom : e.hasExpiry = hasExpiry := by
        by_contra hne
        exact hmove (by simp [hne])
      refine ⟨_, _, { e with value := value.getD e.value }, rfl, ?_⟩
      rw [setKeyAtLink_self]
      obtain ⟨hw1, hmap1⟩ := hw.store_value hp hexp (value.getD e.value)
      exact ⟨hw1, by simp [store], rfl, rfl, hroom, hexp, rfl, hmap1⟩

/-! ### Updates of a field -/

/-- An empty dict. -/
lemma create_wf (withHfe : Bool) :
    (create withHfe).WF ∧ (create withHfe).map = fun _ => none := by
  have hw : (create withHfe).WF := by
    refine ⟨fun p => by simp [create], nodup_nil, fun _ _ => rfl,
      fun p q e e' hp => absurd hp (by simp [create]), ?_, fun p => ?_⟩
    · cases withHfe <;> exact nodup_nil
    · cases withHfe <;> simp [create]
  exact ⟨hw, funext fun f => hw.map_eq_none_iff.mpr fun p e hp => absurd hp (by simp [create])⟩

lemma WF.setInTable_spec (hw : h.WF) (cfg : HashConfig) (f v : Bytes) (keepTtl : Bool) :
    ∃ h1, setInTable cfg h f v keepTtl = some (h1, (h.map f).isSome) ∧ h1.WF ∧
      h1.hfe.isSome = h.hfe.isSome ∧ h1.map = ttlSet h.map f v keepTtl := by
  cases hfind : h.find f with
  | none =>
    have hnone := hw.map_eq_none_iff.mpr (hw.find_eq_none_iff.mp hfind)
    obtain ⟨h1, hadd, hw1, -, hhfe1, hmap1⟩ := hw.add_spec hnone v false
    refine ⟨h1, by simp [setInTable, hfind, hadd, hnone], hw1, by rw [hhfe1], ?_⟩
    simp [ttlSet, hmap1, hnone]
  | some p =>
    obtain ⟨e, hp, rfl⟩ := hw.find_eq_some_iff.mp hfind
    obtain ⟨h1, e1, hpersist, hw1, hp1, hfield1, -, hroom1, hexp1, hhfe1, hmap1⟩ :=
      hw.hfieldPersist_spec hp
    obtain ⟨h2, p', e2, hupdate, hw2, hp2, hfield2, hvalue2, hroom2, hexp2, hhfe2, hmap2⟩ :=
      hw1.entryUpdate_spec cfg hp1 hexp1 (some v) (if keepTtl then e.expiry else none).isSome
    have hlink : (if p' = p then h2 else h2.setKeyAtLink p p') = h2.setKeyAtLink p p' := by
      split_ifs with heq
      · rw [heq, setKeyAtLink_self]
      · rfl
    have hmap2' : (h2.setKeyAtLink p p').map =
        update h.map e.field (some (v, none)) := by
      rw [hmap2, hmap1, hfield1, update_idem]
      rfl
    rw [ttlSet, hw.map_of_heap hp]
    simp only [isSome_some, bind_some]
    cases hkeep : (if keepTtl then e.expiry else none) with
    | none =>
      refine ⟨h2.setKeyAtLink p p', ?_, hw2, by rw [← hhfe1, ← hhfe2]; rfl, hmap2'⟩
      rw [hkeep] at hupdate
      simp only [setInTable, hfind, hp, hpersist, hkeep, hupdate, hlink, bind_eq_bind,
        bind_some, pure_def]
    | some t =>
      have hexp : e.expiry = some t := by
        cases keepTtl
        · cases hkeep
        · exact hkeep
      have hhfe : h.hfe.isSome := by
        obtain ⟨b, hb, -⟩ := hw.exists_hfe hp (by simp [hexp])
        rw [hb]
        rfl
      have hhfe2' : (h2.setKeyAtLink p p').hfe.isSome := by
        show h2.hfe.isSome
        rw [hhfe2, hhfe1, hhfe]
      obtain ⟨h3, hadd, hw3, hhfe3, hmap3⟩ :=
        hw2.ebAdd_spec hp2 (by rw [hroom2, hkeep]; rfl) hexp2 hhfe2' (HashEntry.expiry_le hexp)
      refine ⟨h3, ?_, hw3, by rw [hhfe3, hhfe], ?_⟩
      · rw [hkeep] at hupdate
        simp only [setInTable, hfind, hp, hpersist, hkeep, hupdate, hlink, hadd,
          bind_eq_bind, bind_some, pure_def]
      · rw [hmap3, hmap2', hfield2, hfield1, hvalue2, update_idem]
        rfl

/-- Making room for an expiry time removes the old one. -/
lemma WF.makeRoomForExpiry_spec (hw : h.WF) (cfg : HashConfig) (hp : h.heap p = some e) :
    ∃ h1 p' e', h.makeRoomForExpiry cfg p = some (h1, p') ∧ (h1.setKeyAtLink p p').WF ∧
      (h1.setKeyAtLink p p').heap p' = some e' ∧ e'.field = e.field ∧ e'.value = e.value ∧
      e'.hasExpiry = true ∧ e'.expiry = none ∧
      (h1.setKeyAtLink p p').hfe.isSome = h.hfe.isSome ∧
      (h1.setKeyAtLink p p').map = update h.map e.field (some (e.value, none)) := by
  cases hroom : e.hasExpiry with
  | false =>
    have hexp : e.expiry = none := by simp [HashEntry.expiry, hroom]
    obtain ⟨h1, p', e', hupdate, hw1, hp1, hfield, hvalue, hroom', hexp', hhfe, hmap⟩ :=
      hw.entryUpdate_spec cfg hp hexp none true
    refine ⟨h1, p', e', by simp [makeRoomForExpiry, hp, hroom, hupdate], hw1, hp1, hfield, hvalue,
      hroom', hexp', by rw [← hhfe]; rfl, hmap⟩
  | true =>
    obtain ⟨h1, e1, hpersist, hw1, hp1, hfield, hvalue, hroom', hexp', hhfe, hmap⟩ :=
      hw.hfieldPersist_spec hp
    refine ⟨h1, p, e1, by simp [makeRoomForExpiry, hp, hroom, hpersist], ?_⟩
    rw [setKeyAtLink_self]
    exact ⟨hw1, hp1, hfield, hvalue, hroom'.trans hroom, hexp', hhfe, hmap⟩

lemma WF.setExpiryHT_spec (hw : h.WF) (hhfe : h.hfe.isSome) (cfg : HashConfig) (ctx : HashCtx)
    (cond : ExpireSetCond) (f : Bytes) {t : Option ℕ} (ht : ∀ u ∈ t, u ≤ ebExpireTimeMax) :
    ∃ h1, hashTypeSetExpiryHT cfg ctx h cond f t =
        some (h1, (ttlSetEx true ctx h.map cond f t).2) ∧ h1.WF ∧ h1.hfe.isSome ∧
      h1.map = (ttlSetEx true ctx h.map cond f t).1 := by
  cases hfind : h.find f with
  | none =>
    have hnone := hw.map_eq_none_iff.mpr (hw.find_eq_none_iff.mp hfind)
    exact ⟨h, by simp [hashTypeSetExpiryHT, hfind, ttlSetEx, hnone], hw, hhfe,
      by simp [ttlSetEx, hnone]⟩
  | some p =>
    obtain ⟨e, hp, rfl⟩ := hw.find_eq_some_iff.mp hfind
    have hmap := hw.map_of_heap hp
    obtain ⟨h1, e1, hpersist, hw1, hp1, hfield1, hvalue1, hroom1, hexp1, hhfe1, hmap1⟩ :=
      hw.hfieldPersist_spec hp
    cases t with
    | none =>
      cases hexp : e.expiry with
      | none =>
        rw [hexp] at hmap
        exact ⟨h, by simp [hashTypeSetExpiryHT, hfind, hp, hexp, ttlSetEx, hmap], hw, hhfe,
          by simp [ttlSetEx, hmap]⟩
      | some t0 =>
        rw [hexp] at hmap
        exact ⟨h1, by simp [hashTypeSetExpiryHT, hfind, hp, hexp, hpersist, ttlSetEx, hmap], hw1,
          by rw [hhfe1, hhfe], by simp [ttlSetEx, hmap, hmap1]⟩
    | some t =>
      have hunfold : hashTypeSetExpiryHT cfg ctx h cond e.field (some t) =
          if !cond.allows e.expiry t then some (h, .noConditionMet)
          else if e.expiry = some t then some (h, .ok)
          else (h.makeRoomForExpiry cfg p).bind fun r =>
            if ctx.alreadyExpired t then
              ((r.1.setKeyAtLink p r.2).delete e.field).bind fun r => some (r.1, .deleted)
            else ((r.1.setKeyAtLink p r.2).ebAdd r.2 t).bind fun h => some (h, .ok) := by
        simp only [hashTypeSetExpiryHT, hfind, hp, bind_eq_bind, bind_some,
          pure_def]
      rw [hunfold, ttlSetEx_of_some hmap]
      by_cases hallow : (!cond.allows e.expiry t) = true
      · rw [if_pos hallow, if_pos hallow]
        exact ⟨h, rfl, hw, hhfe, rfl⟩
      rw [if_neg hallow, if_neg hallow]
      by_cases hsame : e.expiry = some t
      · rw [if_pos hsame, if_pos (by simp [hsame])]
        exact ⟨h, rfl, hw, hhfe, rfl⟩
      rw [if_neg hsame, if_neg (by simp [hsame])]
      obtain ⟨h2, p', e', hroom, hw2, hp2, hfield2, hvalue2, hroom2, hexp2, hhfe2, hmap2⟩ :=
        hw.makeRoomForExpiry_spec cfg hp
      rw [hroom, bind_some]
      by_cases hpast : ctx.alreadyExpired t = true
      · rw [if_pos hpast, if_pos hpast]
        obtain ⟨h3, hdelete, hw3, hhfe3, hmap3⟩ := hw2.delete_spec hp2
        rw [hfield2] at hdelete hmap3
        refine ⟨h3, by rw [hdelete, bind_some], hw3, by rw [hhfe3, hhfe2, hhfe], ?_⟩
        rw [hmap3, hmap2, update_idem]
      · rw [if_neg hpast, if_neg hpast]
        obtain ⟨h3, hadd, hw3, hhfe3, hmap3⟩ :=
          hw2.ebAdd_spec hp2 hroom2 hexp2 (by rw [hhfe2, hhfe]) (ht t rfl)
        refine ⟨h3, by rw [hadd, bind_some], hw3, hhfe3, ?_⟩
        rw [hmap3, hmap2, hfield2, hvalue2, update_idem]

end HashTable

end RainCall

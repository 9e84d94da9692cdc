import RainCall.Aof.ManifestSpec

/-!
# Writing and loading a manifest

The reader takes the lines apart where the writer has put them together, and files the entries in
the order in which they were written, so that a manifest is loaded as it was exactly if all of its
lines are.
-/

namespace RainCall

open AofInfo List Option

/-! ### Lines of a text -/

lemma fgetsLines_append {buf line : Bytes} {room : ℕ} (hline : 10 ∉ line)
    (hroom : line.length < room) (text : Bytes) :
    fgetsLines buf room (line ++ 10 :: text) =
      (buf ++ line ++ [10]) :: fgetsLines [] manifestMaxLine text := by
  induction line generalizing buf room with
  | nil => rw [nil_append, fgetsLines, if_pos (.inl rfl), append_nil]
  | cons c line ih =>
    have hc : c ≠ 10 := fun hc => hline (by rw [hc]; exact mem_cons_self)
    rw [length_cons] at hroom
    rw [cons_append, fgetsLines, if_neg (not_or.mpr ⟨hc, by omega⟩),
      ih (fun hmem => hline (mem_cons_of_mem _ hmem)) (by omega)]
    simp

lemma fgetsLines_infos {infos : List AofInfo}
    (h : ∀ ai ∈ infos, 10 ∉ aofInfoFormat ai ∧ (aofInfoFormat ai).length < manifestMaxLine) :
    fgetsLines [] manifestMaxLine (infos.flatMap fun ai => aofInfoFormat ai ++ [10]) =
      infos.map fun ai => aofInfoFormat ai ++ [10] := by
  induction infos with
  | nil => rfl
  | cons ai infos ih =>
    obtain ⟨hline, hlen⟩ := h ai mem_cons_self
    rw [flatMap_cons, map_cons, append_assoc, singleton_append,
      fgetsLines_append hline hlen, nil_append,
      ih fun ai' hai' => h ai' (mem_cons_of_mem _ hai')]

lemma mapM_eq_some_self_iff {α : Type*} {f : α → Option α} {l : List α} :
    l.mapM f = some l ↔ ∀ x ∈ l, f x = some x := by
  induction l with
  | nil => simp
  | cons x l ih =>
    rw [mapM_cons, forall_mem_cons, ← ih]
    cases hx : f x with
    | none => simp
    | some y => cases hl : l.mapM f <;> simp

/-! ### Filing the entries -/

section Load

variable {aofFilename : Bytes}

/-- One line of the manifest. -/
lemma aofLoadLine_eq (st : AofManifest × ℤ) (ai : AofInfo) :
    aofLoadLine st (aofInfoFormat ai ++ [10]) = ai.reread.bind (aofManifestAdd st.1 st.2) := by
  have hhead : (aofInfoFormat ai ++ [10]).head? = some 102 := rfl
  rw [aofLoadLine, hhead, if_neg (by decide), reread]

/-- The lines of history files. -/
lemma runSteps_history (hfile : AofFilename aofFilename) {l : List AofInfo}
    (h : ∀ ai ∈ l, ai.Ok aofFilename aofFileTypeHist) (am : AofManifest) (maxseq : ℤ) :
    runSteps aofLoadLine (am, maxseq) (l.map fun ai => aofInfoFormat ai ++ [10]) =
      (l.mapM reread).map fun l' =>
        ({ am with historyAofList := am.historyAofList ++ l' }, maxseq) := by
  induction l generalizing am with
  | nil => simp
  | cons ai l ih =>
    rw [map_cons, runSteps_cons, aofLoadLine_eq, mapM_cons]
    cases hread : ai.reread with
    | none => rfl
    | some ai' =>
      have htype := ((h ai mem_cons_self).reread_seq_type hfile (by decide) hread).2
      have hadd : aofManifestAdd am maxseq ai' =
          some ({ am with historyAofList := am.historyAofList ++ [ai'] }, maxseq) := by
        rw [aofManifestAdd, htype, if_neg (by decide), if_pos rfl]
      simp only [bind_some, hadd, ih fun ai'' hai => h ai'' (mem_cons_of_mem _ hai)]
      cases l.mapM reread <;> simp

/-- The manifest after the lines of incremental files. -/
def addIncr (st : AofManifest × ℤ) (ai : AofInfo) : AofManifest × ℤ :=
  ({ st.1 with incrAofList := st.1.incrAofList ++ [ai], currIncrFileSeq := ai.fileSeq },
    ai.fileSeq)

lemma foldl_addIncr (l : List AofInfo) (st : AofManifest × ℤ) :
    (l.foldl addIncr st).1.baseAofInfo = st.1.baseAofInfo ∧
      (l.foldl addIncr st).1.historyAofList = st.1.historyAofList ∧
      (l.foldl addIncr st).1.incrAofList = st.1.incrAofList ++ l := by
  induction l generalizing st with
  | nil => simp
  | cons ai l ih =>
    obtain ⟨hbase, hhistory, hincr⟩ := ih (addIncr st ai)
    rw [foldl_cons, hbase, hhistory, hincr]
    simp [addIncr]

/-- The lines of incremental files, whose sequence numbers increase. -/
lemma runSteps_incr (hfile : AofFilename aofFilename) {l : List AofInfo}
    (h : ∀ ai ∈ l, ai.Ok aofFilename aofFileTypeIncr)
    (hsorted : l.Pairwise fun ai aj => ai.fileSeq < aj.fileSeq) (st : AofManifest × ℤ)
    (hlt : ∀ ai ∈ l, st.2 < ai.fileSeq) :
    runSteps aofLoadLine st (l.map fun ai => aofInfoFormat ai ++ [10]) =
      (l.mapM reread).map fun l' => l'.foldl addIncr st := by
  induction l generalizing st with
  | nil => simp
  | cons ai l ih =>
    rw [map_cons, runSteps_cons, aofLoadLine_eq, mapM_cons]
    cases hread : ai.reread with
    | none => rfl
    | some ai' =>
      obtain ⟨hseq, htype⟩ := (h ai mem_cons_self).reread_seq_type hfile (by decide) hread
      obtain ⟨hfirst, hrest⟩ := pairwise_cons.mp hsorted
      have hadd : aofManifestAdd st.1 st.2 ai' = some (addIncr st ai') := by
        have := hlt ai mem_cons_self
        rw [aofManifestAdd, htype, if_neg (by decide), if_neg (by decide), if_pos rfl,
          if_neg (by omega)]
        rfl
      have ih' := ih (fun ai'' hai => h ai'' (mem_cons_of_mem _ hai)) hrest (addIncr st ai')
        fun aj haj => hseq.trans_lt (hfirst aj haj)
      simp only [bind_some, hadd, ih']
      cases l.mapM reread <;> simp

/-- The line of the base file. -/
lemma runSteps_base (hfile : AofFilename aofFilename) {base : Option AofInfo}
    (h : ∀ ai ∈ base, ai.Ok aofFilename aofFileTypeBase) :
    runSteps aofLoadLine (aofManifestCreate, 0)
        (base.toList.map fun ai => aofInfoFormat ai ++ [10]) =
      (base.toList.mapM reread).map fun l' => ({ aofManifestCreate with
        baseAofInfo := l'.head?, currBaseFileSeq := (l'.head?.map fileSeq).getD 0 }, 0) := by
  cases base with
  | none => rfl
  | some ai =>
    rw [toList_some, map_singleton, runSteps_cons, aofLoadLine_eq, mapM_cons]
    cases hread : ai.reread with
    | none => rfl
    | some ai' =>
      have htype := ((h ai rfl).reread_seq_type hfile (by decide) hread).2
      rw [bind_some, aofManifestAdd, htype, if_pos rfl, if_neg (by simp [aofManifestCreate])]
      rfl

end Load

/-- A manifest is loaded as it was written. -/
def AofManifest.LoadsBack (am : AofManifest) : Prop :=
  ∃ am', aofLoadManifestFromFile (getAofManifestAsString am) = some am' ∧
    am'.baseAofInfo = am.baseAofInfo ∧ am'.historyAofList = am.historyAofList ∧
    am'.incrAofList = am.incrAofList

/-- A valid manifest is loaded as it was written exactly if it is not empty and each of its lines is
read back. -/
lemma AofManifest.Ok.loadsBack_iff_reread {aofFilename : Bytes} {am : AofManifest}
    (hfile : AofFilename aofFilename) (h : am.Ok aofFilename) :
    am.LoadsBack ↔ am.infos ≠ [] ∧ ∀ ai ∈ am.infos, ai.reread = some ai := by
  have hline : ∀ ai ∈ am.infos,
      10 ∉ aofInfoFormat ai ∧ (aofInfoFormat ai).length < manifestMaxLine := by
    intro ai hai
    simp only [AofManifest.infos, mem_append, Option.mem_toList] at hai
    rcases hai with (hai | hai) | hai
    · exact (h.base ai hai).line hfile (by decide)
    · exact (h.history ai hai).line hfile (by decide)
    · exact (h.incr ai hai).line hfile (by decide)
  have hload : aofLoadManifestFromFile (getAofManifestAsString am) =
      if am.infos = [] then none
      else (am.baseAofInfo.toList.mapM reread).bind fun base =>
        (am.historyAofList.mapM reread).bind fun history =>
          (am.incrAofList.mapM reread).map fun incr =>
            (incr.foldl addIncr ({ aofManifestCreate with
              baseAofInfo := base.head?
              currBaseFileSeq := (base.head?.map fileSeq).getD 0
              historyAofList := history }, 0)).1 := by
    unfold aofLoadManifestFromFile getAofManifestAsString
    simp only [fgetsLines_infos hline, map_eq_nil_iff]
    congr 1
    rw [AofManifest.infos, map_append, map_append, append_assoc, runSteps_append,
      runSteps_base hfile h.base]
    cases am.baseAofInfo.toList.mapM reread with
    | none => rfl
    | some base =>
      rw [Option.map_some, Option.bind_some, runSteps_append, runSteps_history hfile h.history,
        Option.bind_some]
      cases am.historyAofList.mapM reread with
      | none => rfl
      | some history =>
        rw [Option.map_some, Option.bind_some, Option.bind_some,
          runSteps_incr hfile h.incr h.sorted _ fun ai hai => (h.incr ai hai).seq_pos,
          Option.map_map]
        rfl
  have hself : (∀ ai ∈ am.infos, ai.reread = some ai) ↔
      am.baseAofInfo.toList.mapM reread = some am.baseAofInfo.toList ∧
        am.historyAofList.mapM reread = some am.historyAofList ∧
        am.incrAofList.mapM reread = some am.incrAofList := by
    rw [mapM_eq_some_self_iff, mapM_eq_some_self_iff, mapM_eq_some_self_iff, AofManifest.infos,
      forall_mem_append, forall_mem_append, and_assoc]
  unfold AofManifest.LoadsBack
  rw [hload, hself]
  constructor
  · rintro ⟨am', heq, hbase, hhistory, hincr⟩
    split_ifs at heq with hempty
    refine ⟨hempty, ?_⟩
    simp only [Option.bind_eq_some_iff, Option.map_eq_some_iff] at heq
    obtain ⟨base, hb, history, hh, incr, hi, rfl⟩ := heq
    obtain ⟨hb', hh', hi'⟩ := foldl_addIncr incr ({ aofManifestCreate with
      baseAofInfo := base.head?
      currBaseFileSeq := (base.head?.map fileSeq).getD 0
      historyAofList := history }, 0)
    rw [hb'] at hbase
    rw [hh'] at hhistory
    rw [hi'] at hincr
    have hbaseList : base = am.baseAofInfo.toList := by
      rw [← hbase]
      cases hinfo : am.baseAofInfo with
      | none =>
        rw [hinfo] at hb
        cases hb
        rfl
      | some ai =>
        rw [hinfo, Option.toList_some, mapM_cons] at hb
        cases hread : ai.reread with
        | none =>
          rw [hread] at hb
          cases hb
        | some ai' =>
          rw [hread] at hb
          cases hb
          rfl
    exact ⟨hbaseList ▸ hb, hhistory ▸ hh, hincr ▸ hi⟩
  · rintro ⟨hne, hb, hh, hi⟩
    obtain ⟨hb', hh', hi'⟩ := foldl_addIncr am.incrAofList ({ aofManifestCreate with
      baseAofInfo := am.baseAofInfo.toList.head?
      currBaseFileSeq := (am.baseAofInfo.toList.head?.map fileSeq).getD 0
      historyAofList := am.historyAofList }, 0)
    rw [if_neg hne, hb, hh, hi]
    refine ⟨_, rfl, hb'.trans (by simp), hh', hi'⟩

/-- A manifest that is made by new base files, new incremental files with any offsets and moves to
the history is loaded as it was written, exactly if it holds a file, the name is quoted by the
writer or holds no single quote, and no file has an end offset without a start offset. -/
theorem manifest_loads_back_iff (aofFilename : Bytes) (hfile : AofFilename aofFilename)
    (ops : List ManifestOp) (hops : ∀ op ∈ ops, op.Ok) (am : AofManifest)
    (hrun : runSteps (ManifestOp.step aofFilename) aofManifestCreate ops = some am) :
    am.LoadsBack ↔ am.infos ≠ [] ∧ NameReadable aofFilename ∧
      ∀ ai ∈ am.infos, ai.startOffset = -1 → ai.endOffset = -1 := by
  have hok := AofManifest.Ok.of_run hops hrun
  have hself : ∀ ai ∈ am.infos, (ai.reread = some ai ↔
      NameReadable aofFilename ∧ (ai.startOffset = -1 → ai.endOffset = -1)) := by
    intro ai hai
    simp only [AofManifest.infos, List.mem_append, mem_toList] at hai
    rcases hai with (hai | hai) | hai
    · exact (hok.base ai hai).reread_eq_self_iff hfile (by decide)
    · exact (hok.history ai hai).reread_eq_self_iff hfile (by decide)
    · exact (hok.incr ai hai).reread_eq_self_iff hfile (by decide)
  rw [hok.loadsBack_iff_reread hfile]
  constructor
  · rintro ⟨hne, hall⟩
    obtain ⟨ai, rest, hinfos⟩ := List.exists_cons_of_ne_nil hne
    have hmem : ai ∈ am.infos := hinfos ▸ List.mem_cons_self
    exact ⟨hne, ((hself ai hmem).mp (hall ai hmem)).1, fun aj haj =>
      ((hself aj haj).mp (hall aj haj)).2⟩
  · rintro ⟨hne, hread, hoffsets⟩
    exact ⟨hne, fun ai hai => (hself ai hai).mpr ⟨hread, hoffsets ai hai⟩⟩

/-- A base file and two incremental files of `a b'c`, which is quoted, the first one in the history.
-/
theorem manifest_loads_back_quoted : ∃ am,
    runSteps (ManifestOp.step [97, 32, 98, 39, 99]) aofManifestCreate
      [.newBase true, .newIncr 0, .setEnd 12, .newIncr 12, .markHistory true] = some am ∧
      am.LoadsBack := by
  refine ⟨_, rfl, (manifest_loads_back_iff [97, 32, 98, 39, 99] ⟨by decide, by decide, by decide,
    by decide⟩ [.newBase true, .newIncr 0, .setEnd 12, .newIncr 12, .markHistory true] ?_ _
    rfl).mpr ?_⟩
  · simp [ManifestOp.Ok, IsLongLong]
  · decide +kernel

/-- The base file of `a'b` is written as it is, and the manifest is refused. -/
theorem manifest_single_quote_refused :
    (runSteps (ManifestOp.step [97, 39, 98]) aofManifestCreate [.newBase true]).map
      (fun am => aofLoadManifestFromFile (getAofManifestAsString am)) = some none := by
  decide +kernel

end RainCall

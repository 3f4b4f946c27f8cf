import FieldCircuit.Command.Run
import FieldCircuit.Proofs.Emission
import FieldCircuit.Proofs.FileTree

/-!
# What a failed run leaves behind

A run reads, compiles and proves before it writes (`Command.run_eq`), and what fails until then
leaves the files as they are. Writing is not undone: when the output directory cannot be made, the
directories made on the way to it stay, and when an artifact cannot be written, so do the artifacts
before it. `Command.Leaves` says what a failure leaves, whatever the proof system does.
-/

namespace FieldCircuit.Command

open FileTree

variable {α : Type} {w w' : World} {o : Options} {failure : Failure}

/-! ## Files and journal apart -/

section

variable {context : String} {x : Files α} {a : α} {fault : FileFault} {t : FileTree}

theorem naming_onFiles_of_ok (h : x w.files = .ok a t) :
    naming context (onFiles x) w = .ok a ⟨t, w.journal⟩ := by
  have hx : onFiles x w = .ok (.ok a) ⟨t, w.journal⟩ := by
    unfold onFiles
    rw [h]
  exact bind_of_ok hx

theorem naming_onFiles_of_error (h : x w.files = .error fault t) :
    naming context (onFiles x) w = .error ⟨some context, .file fault⟩ ⟨t, w.journal⟩ := by
  have hx : onFiles x w = .ok (.error fault) ⟨t, w.journal⟩ := by
    unfold onFiles
    rw [h]
  exact bind_of_ok hx

theorem of_naming_onFiles_ok (h : naming context (onFiles x) w = .ok a w') :
    x w.files = .ok a w'.files := by
  cases hx : x w.files with
  | ok =>
    cases (naming_onFiles_of_ok hx).symm.trans h
    rfl
  | error => cases (naming_onFiles_of_error hx).symm.trans h

theorem of_naming_onFiles_error (h : naming context (onFiles x) w = .error failure w') :
    ∃ fault, failure = ⟨some context, .file fault⟩ ∧ x w.files = .error fault w'.files := by
  cases hx : x w.files with
  | ok => cases (naming_onFiles_of_ok hx).symm.trans h
  | error fault =>
    cases (naming_onFiles_of_error hx).symm.trans h
    exact ⟨fault, rfl, rfl⟩

end

theorem files_onJournal (x : Journaled Failure α) (w : World) :
    (stateAfter (onJournal x) w).files = w.files := by
  unfold stateAfter onJournal
  cases x w.journal <;> rfl

theorem readText_of_ok {path text : String} (h : w.files.readText path = .ok text) :
    readText World.host path w = .ok text w := by
  have hx : World.host.readText path w = .ok (.ok text) w := by
    rw [← h]
    rfl
  exact bind_of_ok hx

theorem files_readText (path : String) (w : World) :
    (stateAfter (readText World.host path) w).files = w.files := by
  have hx : World.host.readText path w = .ok (w.files.readText path) w := rfl
  unfold stateAfter readText naming
  rw [bind_of_ok hx]
  cases w.files.readText path <;> rfl

/-! ## Before the first write -/

variable {S : Groth16.Snark} {entropy : S.Randomness}

/-- All that a run does before it writes. -/
def render (S : Groth16.Snark) (entropy : S.Randomness) (o : Options) : Run (List Artifact) := do
  let circuit ← readText World.host o.circuit
  let inputs ← readText World.host o.inputs
  onJournal (artifacts S entropy o circuit inputs)

theorem run_eq (S : Groth16.Snark) (entropy : S.Randomness) (o : Options) :
    run World.host S entropy o = render S entropy o >>= write World.host o.outDir := by
  unfold run render
  simp only [bind_assoc]
  rfl

theorem files_render (S : Groth16.Snark) (entropy : S.Randomness) (o : Options) (w : World) :
    (stateAfter (render S entropy o) w).files = w.files := by
  refine stateAfter_bind (P := fun w' : World => w'.files = w.files)
    (fun _ => files_readText o.circuit w) ?_ rfl
  intro circuit w₁ h₁
  refine stateAfter_bind (P := fun w' : World => w'.files = w.files) (fun _ => ?_) ?_ h₁
  · rw [files_readText, h₁]
  · intro inputs w₂ h₂
    rw [files_onJournal, h₂]

/-- The names of the artifacts, in the order in which they are written. -/
def artifactNames : List String :=
  ["arith_converted", "arith_wires", "proving_key.bin", "verifying_key.bin", "proof.bin"]

theorem isName_of_mem_artifactNames : ∀ name ∈ artifactNames, IsName name ∧ '/' ∉ name.toList := by
  decide +kernel

theorem nodup_artifactNames : artifactNames.Nodup := by
  decide

theorem name_of_ofEncoding {name : String} {bytes : Except EncodingFault (List UInt8)}
    {a : Artifact} (h : Artifact.ofEncoding name bytes = .ok a) : a.name = name := by
  cases bytes <;> cases h
  rfl

theorem names_prove {c : Circuit} {t : Table scalarModulus} {policy : ConstDiv}
    {random : S.Randomness} {as : List Artifact} {journal journal' : Journal}
    (h : prove S c t policy random journal = .ok as journal') :
    as.map Artifact.name = ["proving_key.bin", "verifying_key.bin", "proof.bin"] := by
  obtain ⟨⟨⟨provingKey, verifyingKey⟩, random⟩, _, -, h⟩ := exists_ok_of_bind h
  obtain ⟨⟨proof, _⟩, _, -, h⟩ := exists_ok_of_bind h
  obtain ⟨input, _, -, h⟩ := exists_ok_of_bind h
  obtain ⟨verified, _, -, h⟩ := exists_ok_of_bind h
  cases verified with
  | false => cases h
  | true =>
    obtain ⟨_, _, -, h⟩ := exists_ok_of_bind h
    obtain ⟨_, _, h₁, h⟩ := exists_ok_of_bind h
    obtain ⟨_, _, h₂, h⟩ := exists_ok_of_bind h
    obtain ⟨_, _, h₃, h⟩ := exists_ok_of_bind h
    cases h
    simp only [List.map_cons, List.map_nil, name_of_ofEncoding (liftExcept_eq_ok_iff.1 h₁).1,
      name_of_ofEncoding (liftExcept_eq_ok_iff.1 h₂).1,
      name_of_ofEncoding (liftExcept_eq_ok_iff.1 h₃).1]

theorem names_artifacts {circuit inputs : String} {as : List Artifact} {journal journal' : Journal}
    (h : artifacts S entropy o circuit inputs journal = .ok as journal') :
    as.map Artifact.name <+: artifactNames := by
  obtain ⟨k, _, hk, h⟩ := exists_ok_of_bind h
  obtain ⟨_, _, _, -, -, -, -, -, hartifacts⟩ := (exists_compile_iff journal).1 ⟨_, hk⟩
  rw [hartifacts] at h
  split at h
  · obtain ⟨keys, _, hkeys, h⟩ := exists_ok_of_bind h
    cases h
    rw [List.map_append, names_prove hkeys]
    exact List.prefix_rfl
  · cases h
    exact ⟨_, rfl⟩

theorem names_render {as : List Artifact} (h : render S entropy o w = .ok as w') :
    as.map Artifact.name <+: artifactNames := by
  obtain ⟨circuit, _, -, h⟩ := exists_ok_of_bind h
  obtain ⟨inputs, _, -, h⟩ := exists_ok_of_bind h
  unfold onJournal at h
  split at h
  · next hj =>
    cases h
    exact names_artifacts hj
  · cases h

/-! ## Writing -/

def saveArtifact (outDir : String) (a : Artifact) : Run String := do
  let path := join outDir a.name
  naming s!"failed to write `{path}`" (onFiles (writeFile path a.bytes))
  return path

theorem write_eq (outDir : String) (as : List Artifact) :
    write World.host outDir as = (do
      naming s!"failed to create `{outDir}`" (onFiles (makeDirectories outDir))
      as.mapM (saveArtifact outDir)) := rfl

/-- The artifacts as files in a directory. -/
def filesIn (place : Place) (as : List Artifact) : List (Place × List UInt8) :=
  as.map fun a => (place ++ [a.name], a.bytes)

theorem map_fst_filesIn (place : Place) (as : List Artifact) :
    (filesIn place as).map Prod.fst = (as.map Artifact.name).map fun name => place ++ [name] := by
  simp [filesIn]

section

variable {outDir : String} {place : Place} {as : List Artifact}

theorem saveArtifact_of_opens {a : Artifact} {names : List String}
    (ho : w.files.Opens (components outDir) place) (hn : a.name ∈ artifactNames)
    (hp : checkPath (join outDir a.name) = .ok names) :
    saveArtifact outDir a w =
      if w.files.entry? (place ++ [a.name]) = some .directory then
        .error ⟨some s!"failed to write `{join outDir a.name}`", .file .isADirectory⟩ w
      else
        .ok (join outDir a.name)
          ⟨w.files.set (place ++ [a.name]) (.file a.bytes), w.journal⟩ := by
  obtain ⟨hname, hslash⟩ := isName_of_mem_artifactNames _ hn
  obtain rfl := eq_components_of_checkPath hp
  have hw := writeFile_of_locate hp (ho.locate_join hname hslash) a.bytes
  split
  · next hd =>
    rw [if_pos hd] at hw
    exact bind_of_error (naming_onFiles_of_error hw)
  · next hd =>
    rw [if_neg hd] at hw
    exact bind_of_ok (naming_onFiles_of_ok hw)

theorem eq_of_saveArtifact_error {a : Artifact} (h : saveArtifact outDir a w = .error failure w') :
    ∃ fault, failure = ⟨some s!"failed to write `{join outDir a.name}`", .file fault⟩ ∧
      outcome (writeFile (join outDir a.name) a.bytes) w.files = .error fault ∧
      w'.files = w.files := by
  rcases error_or_of_bind h with h | ⟨_, _, -, h⟩
  · obtain ⟨fault, rfl, hw⟩ := of_naming_onFiles_error h
    refine ⟨fault, rfl, outcome_of_error hw, ?_⟩
    rcases writeFile_cases (join outDir a.name) a.bytes w.files with ⟨_, -, -, hw'⟩ | ⟨fault', hw'⟩
    · cases hw.symm.trans hw'
    · exact (EStateM.Result.error.inj (hw.symm.trans hw')).2
  · cases h

theorem files_of_saveArtifact {a : Artifact} {path : String}
    (ho : w.files.Opens (components outDir) place) (hn : a.name ∈ artifactNames)
    (h : saveArtifact outDir a w = .ok path w') :
    w'.files = w.files.set (place ++ [a.name]) (.file a.bytes) ∧
      w'.files.Opens (components outDir) place := by
  obtain ⟨hname, hslash⟩ := isName_of_mem_artifactNames _ hn
  obtain ⟨_, w₁, h₁, h⟩ := exists_ok_of_bind h
  cases h
  rcases writeFile_cases (join outDir a.name) a.bytes w.files with ⟨r, hr, hdir, h⟩ | ⟨fault, h⟩
  · cases hr.symm.trans (ho.locate_join hname hslash)
    have hfiles := (EStateM.Result.ok.inj ((of_naming_onFiles_ok h₁).symm.trans h)).2
    exact ⟨hfiles, hfiles ▸ (grows_set hdir _).opens ho⟩
  · cases (of_naming_onFiles_ok h₁).symm.trans h

theorem files_of_saveArtifacts {paths : List String}
    (ho : w.files.Opens (components outDir) place) (hn : ∀ a ∈ as, a.name ∈ artifactNames)
    (h : as.mapM (saveArtifact outDir) w = .ok paths w') :
    w'.files = w.files.addFiles (filesIn place as) := by
  induction as generalizing w paths with
  | nil =>
    cases h
    rfl
  | cons a as ih =>
    rw [List.forall_mem_cons] at hn
    rw [List.mapM_cons] at h
    obtain ⟨path, w₁, ha, h⟩ := exists_ok_of_bind h
    obtain ⟨paths, w₂, has, h⟩ := exists_ok_of_bind h
    cases h
    obtain ⟨hfiles, ho⟩ := files_of_saveArtifact ho hn.1 ha
    rw [ih ho hn.2 has, hfiles]
    rfl

/-- Where a directory has the name of the second artifact, the first one is written and stays. -/
theorem write_of_directory {t t' : FileTree} {a b : Artifact} {names names' : List String}
    {journal : Journal} (hmade : makeDirectories outDir t = .ok () t')
    (ho : t'.Opens (components outDir) place) (ha : a.name ∈ artifactNames)
    (hb : b.name ∈ artifactNames) (hpa : checkPath (join outDir a.name) = .ok names)
    (hpb : checkPath (join outDir b.name) = .ok names')
    (hfile : t'.entry? (place ++ [a.name]) ≠ some .directory)
    (hdir : t'.entry? (place ++ [b.name]) = some .directory) :
    write World.host outDir [a, b] ⟨t, journal⟩ =
      .error ⟨some s!"failed to write `{join outDir b.name}`", .file .isADirectory⟩
        ⟨t'.set (place ++ [a.name]) (.file a.bytes), journal⟩ := by
  have hgrows := grows_set hfile (.file a.bytes)
  have hfirst := (saveArtifact_of_opens (w := ⟨t', journal⟩) ho ha hpa).trans (if_neg hfile)
  have hsecond := (saveArtifact_of_opens
    (w := ⟨t'.set (place ++ [a.name]) (.file a.bytes), journal⟩)
    (hgrows.opens ho) hb hpb).trans (if_pos (hgrows.directory _ hdir))
  rw [write_eq, bind_of_ok (naming_onFiles_of_ok hmade), List.mapM_cons, bind_of_ok hfirst,
    List.mapM_cons]
  exact bind_of_error (bind_of_error hsecond)

end

/-! ## Failures -/

/-- The directories and files that a failure leaves: none before the first write, then the new
directories on the way to the output directory, and in it the artifacts before the one that
failed. -/
inductive Leaves (S : Groth16.Snark) (entropy : S.Randomness) (o : Options) (w : World) :
    Failure → List Place → List (Place × List UInt8) → Prop where
  | rendering {failure : Failure} : outcome (render S entropy o) w = .error failure →
      Leaves S entropy o w failure [] []
  | directory {as : List Artifact} {fault : FileFault} {directories : List Place} :
      outcome (render S entropy o) w = .ok as → w.files.MadeFor o.outDir directories →
      outcome (makeDirectories o.outDir) w.files = .error fault →
      Leaves S entropy o w ⟨some s!"failed to create `{o.outDir}`", .file fault⟩ directories []
  | artifact {written rest : List Artifact} {a : Artifact} {fault : FileFault}
      {directories : List Place} {place : Place} :
      outcome (render S entropy o) w = .ok (written ++ a :: rest) →
      w.files.MadeFor o.outDir directories →
      (w.files.addDirectories directories).Opens (components o.outDir) place →
      outcome (writeFile (join o.outDir a.name) a.bytes)
        ((w.files.addDirectories directories).addFiles (filesIn place written)) = .error fault →
      Leaves S entropy o w ⟨some s!"failed to write `{join o.outDir a.name}`", .file fault⟩
        directories (filesIn place written)

theorem map_name_of_render {as rest : List Artifact}
    (h : outcome (render S entropy o) w = .ok (as ++ rest)) :
    as.map Artifact.name <+: artifactNames :=
  (List.map_append ▸ List.prefix_append _ _).trans (names_render (eq_of_outcome_ok h))

section

variable {directories : List Place} {files : List (Place × List UInt8)}

theorem Leaves.absent (h : Leaves S entropy o w failure directories files) :
    ∀ r ∈ directories, w.files.entry? r = none := by
  cases h with
  | rendering => simp
  | directory _ hmade => exact hmade.absent
  | artifact _ hmade => exact hmade.absent

/-- The files that are left stand at different places, none of which is always there. -/
theorem Leaves.places (h : Leaves S entropy o w failure directories files) :
    (∀ f ∈ files, isFixed f.1 = false) ∧ (files.map Prod.fst).Nodup := by
  cases h with
  | rendering => simp
  | directory => simp
  | @artifact written rest a fault _ place hr =>
    have hnames := map_name_of_render hr
    constructor
    · intro f hf
      obtain ⟨b, hb, rfl⟩ := List.mem_map.1 hf
      have hmem := hnames.subset (List.mem_map_of_mem hb)
      exact (isName_of_mem_artifactNames _ hmem).1.isFixed_append place
    · rw [map_fst_filesIn]
      exact (nodup_artifactNames.sublist hnames.sublist).map fun a b hab => by simpa using hab

end

theorem exists_leaves_of_run (h : run World.host S entropy o w = .error failure w') :
    ∃ directories files, Leaves S entropy o w failure directories files ∧
      w'.files = (w.files.addDirectories directories).addFiles files := by
  rw [run_eq] at h
  have hfiles := files_render S entropy o w
  rcases error_or_of_bind h with hr | ⟨as, w₁, hr, h⟩
  · rw [stateAfter_of_error hr] at hfiles
    exact ⟨[], [], .rendering (outcome_of_error hr), hfiles⟩
  rw [stateAfter_of_ok hr] at hfiles
  obtain ⟨directories, hnew, hadded⟩ := exists_madeFor o.outDir w.files
  -- the texts are compiled, and the rest of the run changes files only
  rw [write_eq] at h
  rcases error_or_of_bind h with hm | ⟨_, w₂, hm, h⟩
  · obtain ⟨fault, rfl, hfault⟩ := of_naming_onFiles_error hm
    rw [hfiles] at hfault
    rw [stateAfter_of_error hfault] at hadded
    have hleaves := Leaves.directory (outcome_of_ok hr) hnew (outcome_of_error hfault)
    exact ⟨directories, [], hleaves, hadded⟩
  · have hmade := of_naming_onFiles_ok hm
    rw [hfiles] at hmade
    rw [stateAfter_of_ok hmade] at hadded
    obtain ⟨place, ho⟩ := exists_opens_of_makeDirectories hmade
    obtain ⟨written, a, rest, _, w₃, rfl, hwritten, ha⟩ := exists_error_of_mapM h
    have hnames := map_name_of_render (outcome_of_ok hr)
    have hmem : ∀ b ∈ written, b.name ∈ artifactNames :=
      fun b hb => hnames.subset (List.mem_map_of_mem hb)
    have hw₃ := files_of_saveArtifacts ho hmem hwritten
    obtain ⟨fault, rfl, hfault, hleft⟩ := eq_of_saveArtifact_error ha
    rw [hw₃, hadded] at hfault hleft
    exact ⟨directories, _, .artifact (outcome_of_ok hr) hnew (hadded ▸ ho) hfault, hleft⟩

/-- A failed run leaves the directories it made and the artifacts before the one that failed, so
that the files are as they were exactly when it made no directory and each of those artifacts was
there as it was written. -/
theorem files_of_run_error (h : run World.host S entropy o w = .error failure w') :
    ∃ directories files, Leaves S entropy o w failure directories files ∧
      w'.files = (w.files.addDirectories directories).addFiles files ∧
      (w'.files = w.files ↔
        directories = [] ∧ ∀ f ∈ files, w.files.entry? f.1 = some (.file f.2)) := by
  obtain ⟨directories, files, hleaves, hfiles⟩ := exists_leaves_of_run h
  obtain ⟨hfixed, hnodup⟩ := hleaves.places
  refine ⟨directories, files, hleaves, hfiles, ?_⟩
  rw [hfiles]
  exact addFiles_eq_iff hleaves.absent hfixed hnodup

/-- The output directory is reached through one that has the name of an artifact. -/
def detour : Options := ⟨"c", "i", "arith_wires/..", false, false, none, false⟩

def quotientTree : FileTree :=
  (empty.set ["c"] (.file quotientSource.toUTF8.data.toList)).set ["i"]
    (.file quotientEntries.toUTF8.data.toList)

theorem render_detour (S : Groth16.Snark) (entropy : S.Randomness) :
    ∃ a b journal, render S entropy detour ⟨quotientTree, []⟩ = .ok [a, b] ⟨quotientTree, journal⟩ ∧
      a.name = "arith_converted" ∧ b.name = "arith_wires" := by
  have hc : readText World.host detour.circuit ⟨quotientTree, []⟩ =
      .ok quotientSource ⟨quotientTree, []⟩ := readText_of_ok (by decide +kernel)
  have hi : readText World.host detour.inputs ⟨quotientTree, []⟩ =
      .ok quotientEntries ⟨quotientTree, []⟩ := readText_of_ok (by decide +kernel)
  have ha : Assignment.parse quotientEntries = .ok readEntries := by decide +kernel
  obtain ⟨k, journal, hk⟩ :=
    exists_compile_of_solution parse_quotientSource ha solution_solvedTable []
  obtain ⟨_, program, wires, -, -, -, -, -, hartifacts⟩ := (exists_compile_iff []).1 ⟨journal, hk⟩
  have hjournal : artifacts S entropy detour quotientSource quotientEntries [] =
      .ok k.artifacts journal := by
    unfold artifacts
    rw [bind_of_ok hk]
    rfl
  refine ⟨.ofText "arith_converted" program.text, .ofText "arith_wires" wires, journal, ?_, rfl,
    rfl⟩
  unfold render
  rw [bind_of_ok hc, bind_of_ok hi, ← hartifacts]
  unfold onJournal
  rw [hjournal]

theorem makeDirectories_detour : makeDirectories detour.outDir quotientTree =
    .ok () (quotientTree.set ["arith_wires"] .directory) := by
  have hleft : stateAfter (makeDirectories detour.outDir) quotientTree =
      quotientTree.set ["arith_wires"] .directory := by decide +kernel
  rw [← hleft]
  exact eq_of_outcome_ok (by decide +kernel)

theorem run_detour (S : Groth16.Snark) (entropy : S.Randomness) :
    ∃ program journal, run World.host S entropy detour ⟨quotientTree, []⟩ =
      .error ⟨some "failed to write `arith_wires/../arith_wires`", .file .isADirectory⟩
        ⟨(quotientTree.set ["arith_wires"] .directory).set ["arith_converted"] (.file program),
          journal⟩ := by
  obtain ⟨a, b, journal, hr, ha, hb⟩ := render_detour S entropy
  refine ⟨a.bytes, journal, ?_⟩
  have hmade := makeDirectories_detour
  generalize ht : quotientTree.set ["arith_wires"] .directory = t at hmade ⊢
  have ho : t.Opens (components detour.outDir) [] := ht ▸ ⟨by decide +kernel, by decide +kernel⟩
  have hfile : t.entry? ["arith_converted"] ≠ some .directory := ht ▸ by decide +kernel
  have hdir : t.entry? ["arith_wires"] = some .directory := ht ▸ by decide +kernel
  have hpa : checkPath (join detour.outDir "arith_converted") =
      .ok ["arith_wires", "..", "arith_converted"] := by decide +kernel
  have hpb : checkPath (join detour.outDir "arith_wires") =
      .ok ["arith_wires", "..", "arith_wires"] := by decide +kernel
  have hjoin : join detour.outDir "arith_wires" = "arith_wires/../arith_wires" := by decide +kernel
  rw [run_eq, bind_of_ok hr, write_of_directory hmade ho (ha ▸ by decide) (hb ▸ by decide)
    (ha ▸ hpa) (hb ▸ hpb) (ha ▸ hfile) (hb ▸ hdir), ha, hb, hjoin]
  rfl

/-- The circuit compiles and its first artifact is written, but a directory is in the place of the
second. No proof is asked for, so that the proof system does not matter. -/
theorem run_detour_changes_files : detour.prove = false ∧
    ∀ (S : Groth16.Snark) (entropy : S.Randomness), ∃ failure w',
      run World.host S entropy detour ⟨quotientTree, []⟩ = .error failure w' ∧
      failure.message =
        "failed to write `arith_wires/../arith_wires`: Is a directory (os error 21)" ∧
      quotientTree.entry? ["arith_converted"] = none ∧
      (∃ bytes, w'.files.entry? ["arith_converted"] = some (.file bytes)) ∧
      quotientTree.entry? ["arith_wires"] = none ∧
      w'.files.entry? ["arith_wires"] = some .directory := by
  refine ⟨rfl, fun S entropy => ?_⟩
  obtain ⟨program, journal, h⟩ := run_detour S entropy
  refine ⟨_, _, h, by decide +kernel, by decide +kernel, ⟨program, ?_⟩, by decide +kernel, ?_⟩
  · exact (entry?_set (by decide) _ _).trans (if_pos rfl)
  · rw [entry?_set (by decide), if_neg (by decide), entry?_set (by decide), if_pos rfl]

theorem files_of_run_detour : detour.prove = false ∧
    ∀ (S : Groth16.Snark) (entropy : S.Randomness), ∃ failure w',
      run World.host S entropy detour ⟨quotientTree, []⟩ = .error failure w' ∧
      ∃ directories files, Leaves S entropy detour ⟨quotientTree, []⟩ failure directories files ∧
        w'.files = (quotientTree.addDirectories directories).addFiles files ∧
        ¬(directories = [] ∧ ∀ f ∈ files, quotientTree.entry? f.1 = some (.file f.2)) := by
  refine ⟨rfl, fun S entropy => ?_⟩
  obtain ⟨program, journal, h⟩ := run_detour S entropy
  obtain ⟨directories, files, hleaves, hfiles, hiff⟩ := files_of_run_error h
  refine ⟨_, _, h, directories, files, hleaves, hfiles, fun huntouched => ?_⟩
  have hsame : (quotientTree.set ["arith_wires"] .directory).set ["arith_converted"]
      (.file program) = quotientTree := hiff.2 huntouched
  have hnone : quotientTree.entry? ["arith_converted"] = none := by decide +kernel
  rw [← hsame, entry?_set (by decide), if_pos rfl] at hnone
  cases hnone

end FieldCircuit.Command

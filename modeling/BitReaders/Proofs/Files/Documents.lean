import BitReaders.Proofs.Files.Sequences
import BitReaders.Proofs.Json.RoundTrip
import BitReaders.Proofs.Text.Utf8

/-!
# Documents written and read again

A text of a value that is written to a file is read as that value, also if its newlines are stored
as other line ends.

- `Volume.Writable`: the directories above a path can be made, and there it leads to no directory.
  `exists_writeText_eq_ok_iff`: to these paths every text can be written, to others none.
- `Wrote.readDocument`: a file that holds a text of a value is read as that value.
- `readDocument_writeText_store`: **the round trip** of a document, with any line ends.
-/

namespace BitReaders

namespace Volume

variable {v w : Volume} {p : Path}

/-! ## Writing -/

/-- The directories above the path can be made, and the path then leads to no directory. -/
structure Writable (v : Volume) (p : Path) : Prop where
  noNull : p.hasNull = false
  place : ∃ u l, v.ensureDirectory p.parent = (.ok (), u) ∧ u.locate p = .ok l ∧
    u.get? l ≠ some .directory

/-- Every text can be written to a path that is writable. -/
theorem Writable.exists_writeText_eq_ok (h : v.Writable p) (text : String) :
    ∃ w, v.writeText p text = (.ok (), w) := by
  obtain ⟨u, l, hensure, hlocate, hdir⟩ := h.place
  refine ⟨u.put l (.file (Utf8.encode text.toList)), ?_⟩
  have hwrite : u.writeFile p (Utf8.encode text.toList) =
      .ok (u.put l (.file (Utf8.encode text.toList))) := by
    rw [writeFile, hlocate]
    dsimp only
    split
    · rename_i hl
      exact absurd hl hdir
    · rfl
  rw [writeText, hensure]
  dsimp only
  rw [if_neg (by rw [h.noNull]; exact Bool.false_ne_true), hwrite]

/-- A path to which some text can be written is writable. -/
theorem writable_of_writeText_eq_ok {text : String} (h : v.writeText p text = (.ok (), w)) :
    v.Writable p := by
  unfold writeText at h
  split at h
  · cases h
  · rename_i u hensure
    split at h
    · cases h
    · rename_i hnull
      split at h
      · cases h
      · rename_i hwrite
        obtain ⟨l, hlocate, hdir, -⟩ := writeFile_eq_ok hwrite
        exact ⟨eq_false_of_ne_true hnull, u, l, hensure, hlocate, hdir⟩

/-- **The writable paths** are those to which a text can be written, whatever the text. -/
theorem exists_writeText_eq_ok_iff (text : String) :
    (∃ w, v.writeText p text = (.ok (), w)) ↔ v.Writable p := by
  constructor
  · rintro ⟨w, hw⟩
    exact writable_of_writeText_eq_ok hw
  · exact fun h => h.exists_writeText_eq_ok text

/-! ## Reading -/

/-- A file that holds a text of a storable value, with any line ends, is read as that value. -/
theorem Wrote.readDocument {cs : List Char} (h : v.Wrote w p (Utf8.encode cs))
    (hnull : p.hasNull = false) {d : Json.Value} (hd : d.Storable)
    (hcs : Json.Written d.tokens cs) : w.readDocument p = .ok d := by
  have hfold : Json.read (foldLineEnds cs) = .ok d := Json.read_eq_ok hd hcs.foldLineEnds
  rw [readDocument_eq_documentOf h.readFile hnull, documentOf, Utf8.decode_encode]
  dsimp only
  rw [hfold]

theorem Writable.readDocument_writeText (hp : v.Writable p) {d : Json.Value} (hd : d.Storable)
    {cs : List Char} (hcs : Json.Written d.tokens cs) :
    ∃ w, v.writeText p (String.ofList cs) = (.ok (), w) ∧ w.readDocument p = .ok d := by
  obtain ⟨w, hw⟩ := (exists_writeText_eq_ok_iff (String.ofList cs)).mpr hp
  have hwrote := wrote_of_writeText_eq_ok hw
  rw [String.toList_ofList] at hwrote
  exact ⟨w, hw, hwrote.readDocument hp.noNull hd hcs⟩

/-- **The round trip of a document.** A storable value has texts. Each of them can be written to a
writable path and is read there as the value, with its newlines as they are or as line ends of
another kind. All newlines are between tokens, since those in strings are escaped. -/
theorem readDocument_writeText_store (hp : v.Writable p) {d : Json.Value} (hd : d.Storable) :
    (∃ cs, Json.Written d.tokens cs) ∧ ∀ cs, Json.Written d.tokens cs →
      (∃ w, v.writeText p (String.ofList cs) = (.ok (), w) ∧ w.readDocument p = .ok d) ∧
      ∀ e : LineEnd, ∃ w, v.writeText p (String.ofList (e.store cs)) = (.ok (), w) ∧
        w.readDocument p = .ok d :=
  ⟨hd.exists_written, fun _ hcs =>
    ⟨hp.readDocument_writeText hd hcs, fun e => hp.readDocument_writeText hd (hcs.store e)⟩⟩

/-- An object with a newline in a name and an array below it. -/
def spread : Json.Value :=
  .object [(.ofString "a\nb", .array [.integer (-12), .null])]

theorem storable_spread : spread.Storable := by
  refine .object (List.nodup_singleton _) ?_ ?_
  · exact List.forall_mem_singleton.mpr ⟨_, rfl⟩
  · refine List.forall_mem_singleton.mpr (.array ?_)
    exact List.forall_mem_cons.mpr ⟨.integer (by decide), List.forall_mem_singleton.mpr .null⟩

/-- A text of it in two lines, with the newline of the name escaped. -/
theorem written_spread :
    Json.Written spread.tokens "\x7b\"a\\u000Ab\":\n [-12,null]\x7d".toList := by
  have hname : Json.WrittenToken (.scalar (.string (.ofString "a\nb")))
      "\"a\\u000Ab\"".toList :=
    @Json.WrittenToken.string ['a', '\n', 'b'] [['a'], "\\u000A".toList, ['b']]
      (.cons (.raw (by decide)) (.cons (.unit (by decide) (by decide))
        (.cons (.raw (by decide)) .nil)))
  have hblank : Json.Blank ['\n', ' '] :=
    List.forall_mem_cons.mpr ⟨by decide, List.forall_mem_singleton.mpr (by decide)⟩
  exact .tight (.mark .openObject) <| .tight hname <| .tight (.mark .colon) <|
    .cons hblank (.mark .openArray) <| .tight (.integer (-12)) <| .tight (.mark .comma) <|
    .tight .null <| .tight (.mark .closeArray) <| .tight (.mark .closeObject) (.nil Json.blank_nil)

/-- It comes back from a file with lines that end in both characters, in a directory made for it. -/
theorem readDocument_writeText_store_spread :
    ∃ w, writeText ⟨[], []⟩ (.ofString "made/axes.json")
        "\x7b\"a\\u000Ab\":\r\n [-12,null]\x7d" = (.ok (), w) ∧
      w.readDocument (.ofString "made/axes.json") = .ok spread := by
  have hp : Writable ⟨[], []⟩ (.ofString "made/axes.json") :=
    ⟨rfl, _, ["made", "axes.json"], rfl, rfl, nofun⟩
  exact ((readDocument_writeText_store hp storable_spread).2 _ written_spread).2 .both

end Volume

end BitReaders

import OrderedBnf.CommandLine
import OrderedBnf.StatementTrace

/-! Files as they are stored. A program that reads them decodes them first; over texts that were
encoded it does what it does over the texts themselves. -/
namespace OrderedBnf

namespace Files
variable {α β : Type}

theorem find_map (f : α → β) (files : List (String × α)) (path : String) :
    find (files.map (Prod.map id f)) path = (find files path).map f := by
  have hlookup (name : String) :
      (files.map (Prod.map id f)).lookup name = (files.lookup name).map f := by
    induction files with
    | nil => rfl
    | cons file files ih =>
      obtain ⟨name', content⟩ := file
      rw [List.map_cons, Prod.map_apply, id, List.lookup_cons, List.lookup_cons, ih]
      cases name == name' <;> rfl
  have hany (p : String → Bool) :
      (files.map (Prod.map id f)).any (fun file => p file.1) = files.any fun file => p file.1 :=
    List.any_map
  rw [find, find, hlookup]
  cases files.lookup (nameOf path) with
  | some => rfl
  | none =>
    dsimp only [Option.map_none]
    rw [hany fun name => (name ++ "/").toList.isPrefixOf (nameOf path).toList]
    split
    · rfl
    · split <;> rfl

def stored (files : Files) : Folder := files.map (Prod.map id fun text => (String.ofList text).toUTF8)

end Files

/-- A text is read back from its bytes. -/
theorem Encoding.utf8_toUTF8 (text : Text) : utf8 (String.ofList text).toUTF8 = some text := by
  rw [utf8, String.fromUTF8?, String.toUTF8_eq_toByteArray,
    dif_pos (String.ofList text).isValidUTF8]
  exact congrArg some String.toList_ofList

theorem Folder.read_stored (files : Files) (path : String) :
    files.stored.read .utf8 path = (files.read path).mapError .absent := by
  rw [Folder.read, Files.read, Files.stored, Files.find_map]
  cases Files.find files path with
  | error error => rfl
  | ok content =>
    simp only [Except.map, Encoding.utf8_toUTF8]
    rfl

def Interruption.map {ε ε' : Type} (f : ε → ε') : Interruption ε → Interruption ε'
  | unreadable path error => unreadable path (f error)
  | aborted cause => aborted cause

section Errors
variable {ε ε' : Type} (f : ε → ε')

def relabel {α : Type} (ran : Except (Interruption ε) α × Transcript) :
    Except (Interruption ε') α × Transcript :=
  (ran.1.mapError (Interruption.map f), ran.2)

/-- A step that goes by what has been read is relabelled where each of its two ways is. -/
theorem relabel_read {α : Type} (found : Except ε Text)
    {unread : ε → Except (Interruption ε) α × Transcript}
    {unread' : ε' → Except (Interruption ε') α × Transcript}
    {go : Text → Except (Interruption ε) α × Transcript}
    {go' : Text → Except (Interruption ε') α × Transcript}
    (herror : ∀ error, unread' (f error) = relabel f (unread error))
    (hok : ∀ text, go' text = relabel f (go text)) :
    (match found.mapError f with
      | .error error => unread' error
      | .ok text => go' text) =
    relabel f (match found with
      | .error error => unread error
      | .ok text => go text) := by
  cases found with
  | error error => exact herror error
  | ok text => exact hok text

namespace CommandLine
variable {o : Options} {read : Reads ε}

theorem parseSources_mapError (language : Language) (start : String) (matched : Bool)
    (before : Transcript) (sources : List String) :
    parseSources o (fun path => (read path).mapError f) language start matched before sources =
      relabel f (parseSources o read language start matched before sources) := by
  induction sources generalizing matched before with
  | nil => rfl
  | cons path rest ih =>
    rw [parseSources, parseSources]
    refine relabel_read f (read path) (fun _ => rfl) fun text => ?_
    cases parseSource o language start path text with
    | error => rfl
    | ok parsed => exact ih _ _

theorem runGrammar_mapError (path : String) (document : Text) (sources : List String)
    (before : Transcript) :
    runGrammar o (fun path => (read path).mapError f) path document sources before =
      relabel f (runGrammar o read path document sources before) := by
  rw [runGrammar, runGrammar]
  cases Grammar.load document.lines [] with
  | error => rfl
  | ok grammar =>
    dsimp only
    cases (o.rule.filter (· ≠ "")).or grammar.names.head? with
    | none => rfl
    | some start => exact parseSources_mapError ..

theorem runWith_mapError (o : Options) (read : Reads ε) :
    runWith (fun path => (read path).mapError f) o = relabel f (runWith read o) := by
  rw [runWith, runWith]
  cases o.paths with
  | nil => rfl
  | cons path sources =>
    refine relabel_read f (read path) (fun _ => rfl) fun document => ?_
    have hgrammar := @runGrammar_mapError _ _ f o read path document sources
    split
    · cases MetaGrammar.lint document (some path) with
      | error error => cases error <;> rfl
      | ok => exact hgrammar _
    · exact hgrammar _

/-- Over stored texts the command line does what it does over the texts. -/
theorem runStored_stored (files : Files) (o : Options) :
    runStored .utf8 files.stored o = relabel .absent (run files o) := by
  rw [runStored, funext (Folder.read_stored files)]
  exact runWith_mapError ..

end CommandLine

namespace StatementTrace
variable {read : Reads ε}

theorem runWith_mapError (before : Transcript) (paths : List String) :
    runWith (fun path => (read path).mapError f) before paths =
      relabel f (runWith read before paths) := by
  induction paths generalizing before with
  | nil => rfl
  | cons path rest ih =>
    rw [runWith, runWith]
    refine relabel_read f (read path) (fun _ => rfl) fun text => ?_
    rcases instrument text "trace" with (d | cause) | result
    · exact ih _
    · rfl
    · exact ih _

theorem runStored_stored (files : Files) (before : Transcript) (paths : List String) :
    runStored .utf8 files.stored before paths = relabel .absent (run files before paths) := by
  rw [runStored, funext (Folder.read_stored files)]
  exact runWith_mapError ..

end StatementTrace
end Errors
end OrderedBnf

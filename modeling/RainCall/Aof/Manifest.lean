import RainCall.Sds.Args
import RainCall.Foundation.Run

/-!
# The AOF manifest

The manifest lists the append-only files: at most one base file, history files, and incremental
files. It is written as one line per file and read back at the next start.

An operation that fails an assertion, or that increments a sequence number past the greatest
`long long`, is the result `none`; so is a manifest file that is refused, which ends the process.
-/

namespace RainCall

/-- `AOF_FILE_TYPE_BASE`, the character `b` -/
def aofFileTypeBase : UInt8 := 98

/-- `AOF_FILE_TYPE_HIST`, the character `h` -/
def aofFileTypeHist : UInt8 := 104

/-- `AOF_FILE_TYPE_INCR`, the character `i` -/
def aofFileTypeIncr : UInt8 := 105

/-- `aofInfo`; the name is a null pointer and the type zero until they are set. -/
structure AofInfo where
  fileName : Option Bytes
  fileSeq : ℤ
  fileType : UInt8
  startOffset : ℤ
  endOffset : ℤ
deriving DecidableEq, Repr

def aofInfoCreate : AofInfo := ⟨none, 0, 0, -1, -1⟩

structure AofManifest where
  baseAofInfo : Option AofInfo
  incrAofList : List AofInfo
  historyAofList : List AofInfo
  currBaseFileSeq : ℤ
  currIncrFileSeq : ℤ
deriving DecidableEq, Repr

def aofManifestCreate : AofManifest := ⟨none, [], [], 0, 0⟩

/-! ### Changes of the manifest -/

/-- The increment of a sequence number. -/
def nextSeq (seq : ℤ) : Option ℤ := if seq + 1 ≤ llongMax then some (seq + 1) else none

/-- `.base.rdb` or `.base.aof` -/
def baseFileSuffix (aofUseRdbPreamble : Bool) : Bytes :=
  [46, 98, 97, 115, 101] ++ if aofUseRdbPreamble then [46, 114, 100, 98] else [46, 97, 111, 102]

/-- `.incr.aof` -/
def incrFileSuffix : Bytes := [46, 105, 110, 99, 114, 46, 97, 111, 102]

def getNewBaseFileNameAndMarkPreAsHistory (aofFilename : Bytes) (aofUseRdbPreamble : Bool)
    (am : AofManifest) : Option AofManifest := do
  let history ← am.baseAofInfo.elim (some am.historyAofList) fun ai =>
    if ai.fileType = aofFileTypeBase then
      some ({ ai with fileType := aofFileTypeHist } :: am.historyAofList)
    else none
  let seq ← nextSeq am.currBaseFileSeq
  let name := aofFilename ++ 46 :: signedDecimal seq ++ baseFileSuffix aofUseRdbPreamble
  some { am with
    baseAofInfo := some { aofInfoCreate with
      fileName := some name, fileSeq := seq, fileType := aofFileTypeBase }
    historyAofList := history
    currBaseFileSeq := seq }

def getNewIncrAofName (aofFilename : Bytes) (startReploff : ℤ) (am : AofManifest) :
    Option AofManifest := do
  let seq ← nextSeq am.currIncrFileSeq
  let name := aofFilename ++ 46 :: signedDecimal seq ++ incrFileSuffix
  some { am with
    incrAofList := am.incrAofList ++ [{ aofInfoCreate with
      fileName := some name, fileSeq := seq, fileType := aofFileTypeIncr,
      startOffset := startReploff }]
    currIncrFileSeq := seq }

/-- The loop of `markRewrittenIncrAofAsHistory` from the tail of the list to its head. -/
def moveToHistory : List AofInfo → List AofInfo → Option (List AofInfo)
  | history, [] => some history
  | history, ai :: rest =>
    if ai.fileType = aofFileTypeIncr then
      moveToHistory ({ ai with fileType := aofFileTypeHist } :: history) rest
    else none

/-- `markRewrittenIncrAofAsHistory`; the last file is skipped if the AOF is open. -/
def markRewrittenIncrAofAsHistory (aofOpen : Bool) (am : AofManifest) : Option AofManifest := do
  let fromTail := am.incrAofList.reverse
  let kept := if aofOpen then fromTail.take 1 else []
  let history ← moveToHistory am.historyAofList (fromTail.drop kept.length)
  some { am with incrAofList := kept, historyAofList := history }

/-- The change of the last incremental file in `updateCurIncrAofEndOffset`, and, with the offset
`-1`, in `updateReplOffsetAndResetEndOffset`. -/
def updateCurIncrAofEndOffset (endOffset : ℤ) (am : AofManifest) : AofManifest :=
  { am with
    incrAofList := am.incrAofList.dropLast ++
      am.incrAofList.getLast?.toList.map fun ai => { ai with endOffset := endOffset } }

/-- `aofUpgradePrepare`: a base file with the name itself. -/
def aofUpgradePrepare (aofFilename : Bytes) (am : AofManifest) : AofManifest :=
  { am with
    baseAofInfo := some { aofInfoCreate with
      fileName := some aofFilename, fileSeq := 1, fileType := aofFileTypeBase }
    currBaseFileSeq := 1 }

def aofDelHistoryFiles (am : AofManifest) : Option AofManifest :=
  if am.historyAofList.all (·.fileType = aofFileTypeHist) then some { am with historyAofList := [] }
  else none

/-- The changes of the manifest. -/
inductive ManifestOp
  | newBase (aofUseRdbPreamble : Bool)
  | newIncr (startReploff : ℤ)
  | setEnd (endOffset : ℤ)
  | markHistory (aofOpen : Bool)
  | upgrade
  | delHistory
deriving DecidableEq, Repr

/-- One change of the manifest. -/
def ManifestOp.step (aofFilename : Bytes) (am : AofManifest) :
    ManifestOp → Option AofManifest
  | .newBase rdb => getNewBaseFileNameAndMarkPreAsHistory aofFilename rdb am
  | .newIncr start => getNewIncrAofName aofFilename start am
  | .setEnd endOffset => some (updateCurIncrAofEndOffset endOffset am)
  | .markHistory aofOpen => markRewrittenIncrAofAsHistory aofOpen am
  | .upgrade => some (aofUpgradePrepare aofFilename am)
  | .delHistory => aofDelHistoryFiles am

/-! ### Writing -/

/-- `AOF_MANIFEST_KEY_FILE_NAME`, `file` -/
def aofManifestKeyFileName : Bytes := [102, 105, 108, 101]

/-- `AOF_MANIFEST_KEY_FILE_SEQ`, `seq` -/
def aofManifestKeyFileSeq : Bytes := [115, 101, 113]

/-- `AOF_MANIFEST_KEY_FILE_TYPE`, `type` -/
def aofManifestKeyFileType : Bytes := [116, 121, 112, 101]

/-- `AOF_MANIFEST_KEY_FILE_STARTOFFSET`, `startoffset` -/
def aofManifestKeyFileStartoffset : Bytes :=
  [115, 116, 97, 114, 116, 111, 102, 102, 115, 101, 116]

/-- `AOF_MANIFEST_KEY_FILE_ENDOFFSET`, `endoffset` -/
def aofManifestKeyFileEndoffset : Bytes := [101, 110, 100, 111, 102, 102, 115, 101, 116]

/-- The offsets at the end of a line. -/
def aofInfoFormatOffsets (ai : AofInfo) : Bytes :=
  if ai.startOffset ≠ -1 then
    32 :: aofManifestKeyFileStartoffset ++ 32 :: signedDecimal ai.startOffset ++
      if ai.endOffset ≠ -1 then 32 :: aofManifestKeyFileEndoffset ++ 32 ::
        signedDecimal ai.endOffset
      else []
  else []

/-- The name of a file in its line, quoted if `sdsneedsrepr` asks for it. -/
def fileNameRepr (name : Bytes) : Bytes :=
  if sdsneedsrepr name then sdscatrepr [] name else name

/-- `aofInfoFormat` without the newline at the end; the name is not null. -/
def aofInfoFormat (ai : AofInfo) : Bytes :=
  aofManifestKeyFileName ++ 32 :: (fileNameRepr (ai.fileName.getD []) ++
    32 :: (aofManifestKeyFileSeq ++ 32 :: (signedDecimal ai.fileSeq ++
      32 :: (aofManifestKeyFileType ++ 32 :: (ai.fileType :: aofInfoFormatOffsets ai)))))

/-- The files of a manifest, in the order of its lines. -/
def AofManifest.infos (am : AofManifest) : List AofInfo :=
  am.baseAofInfo.toList ++ am.historyAofList ++ am.incrAofList

def getAofManifestAsString (am : AofManifest) : Bytes :=
  am.infos.flatMap fun ai => aofInfoFormat ai ++ [10]

/-! ### Reading -/

def manifestMaxLine : ℕ := 1024

/-- The lines that `fgets` reads, with the part of the current one that has been read and the room
that is left in the buffer. -/
def fgetsLines (buf : Bytes) : ℕ → Bytes → List Bytes
  | _, [] => if buf = [] then [] else [buf]
  | room, c :: text =>
    if c = 10 ∨ room ≤ 1 then (buf ++ [c]) :: fgetsLines [] manifestMaxLine text
    else fgetsLines (buf ++ [c]) (room - 1) text

def sdstrim (s cset : Bytes) : Bytes :=
  (s.dropWhile (· ∈ cset)).rdropWhile (· ∈ cset)

/-- `tolower` of a byte in the C locale -/
def tolowerByte (c : UInt8) : UInt8 := if 65 ≤ c ∧ c ≤ 90 then c + 32 else c

/-- `!strcasecmp(a, b)` -/
def strcaseeq (a b : Bytes) : Bool := a.map tolowerByte = b.map tolowerByte

/-- The number in a string of digits. -/
def digitsVal (s : Bytes) : ℕ := s.foldl (fun v c => v * 10 + digitVal c) 0

def atoll (s : Bytes) : ℤ :=
  match s.dropWhile isspace with
  | [] => 0
  | c :: p =>
    if c = 45 then -(digitsVal (p.takeWhile (IsDigit ·)) : ℤ)
    else if c = 43 then digitsVal (p.takeWhile (IsDigit ·))
    else digitsVal ((c :: p).takeWhile (IsDigit ·))

def pathIsBaseName (path : Bytes) : Bool := 47 ∉ path ∧ 92 ∉ path

/-- One pair of arguments of a line; an argument is used as a C string. -/
def aofInfoReadArg (ai : AofInfo) (key value : Bytes) : Option AofInfo :=
  if strcaseeq key aofManifestKeyFileName then
    if pathIsBaseName value then some { ai with fileName := some value } else none
  else if strcaseeq key aofManifestKeyFileSeq then some { ai with fileSeq := atoll value }
  else if strcaseeq key aofManifestKeyFileType then some { ai with fileType := value.headD 0 }
  else if strcaseeq key aofManifestKeyFileStartoffset then
    some { ai with startOffset := atoll value }
  else if strcaseeq key aofManifestKeyFileEndoffset then some { ai with endOffset := atoll value }
  else some ai

/-- The loop over the pairs of arguments of a line. -/
def aofInfoReadArgs : AofInfo → List Bytes → Option AofInfo
  | ai, key :: value :: args => (aofInfoReadArg ai key value).bind (aofInfoReadArgs · args)
  | ai, _ => some ai

/-- The part of a string before a zero byte. -/
def cString (s : Bytes) : Bytes := s.takeWhile (· ≠ 0)

/-- A line of the manifest that is no comment. -/
def aofInfoParse (buf : Bytes) : Option AofInfo := do
  if 10 ∉ buf then none
  else do
    let line := sdstrim buf [32, 9, 13, 10]
    if line = [] then none
    else do
      let argv ← sdssplitargs line
      if argv.length < 6 ∨ argv.length % 2 = 1 then none
      else do
        let ai ← aofInfoReadArgs aofInfoCreate (argv.map cString)
        if ai.fileName = none ∨ ai.fileSeq = 0 ∨ ai.fileType = 0 then none else some ai

/-- Adding a file that has been read to the manifest; `maxseq` is the greatest sequence number of an
incremental file. -/
def aofManifestAdd (am : AofManifest) (maxseq : ℤ) (ai : AofInfo) : Option (AofManifest × ℤ) :=
  if ai.fileType = aofFileTypeBase then
    if am.baseAofInfo ≠ none then none
    else some ({ am with baseAofInfo := some ai, currBaseFileSeq := ai.fileSeq }, maxseq)
  else if ai.fileType = aofFileTypeHist then
    some ({ am with historyAofList := am.historyAofList ++ [ai] }, maxseq)
  else if ai.fileType = aofFileTypeIncr then
    if ai.fileSeq ≤ maxseq then none
    else some ({ am with
      incrAofList := am.incrAofList ++ [ai], currIncrFileSeq := ai.fileSeq }, ai.fileSeq)
  else none

/-- One round of the loop over the lines. -/
def aofLoadLine (state : AofManifest × ℤ) (buf : Bytes) : Option (AofManifest × ℤ) :=
  if buf.head? = some 35 then some state
  else (aofInfoParse buf).bind (aofManifestAdd state.1 state.2)

/-- `aofLoadManifestFromFile`, on the text of the file -/
def aofLoadManifestFromFile (text : Bytes) : Option AofManifest :=
  let lines := fgetsLines [] manifestMaxLine text
  if lines = [] then none
  else (runSteps aofLoadLine (aofManifestCreate, 0) lines).map Prod.fst

end RainCall

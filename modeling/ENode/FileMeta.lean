import ENode.SearchExpr

/-! What an offered file is clamped to before it is stored. -/
namespace ENode.Storage

open GoText

def maxNameLen : Nat := 255
def maxTitleLen : Nat := 128
def maxArtistLen : Nat := 128
def maxAlbumLen : Nat := 128
def maxCodecLen : Nat := 32

def enumFileTypes : List String := ["Image","Audio","Video","Pro","Doc",""]

def ed2kTypeAliases : List (String × String) := [("Arc","Pro"),("Iso","Pro")]

def videoExts : List String :=
  ["3gp","aaf","asf","avchd","avi","fla","flv","m1v","m2v","m4v","mp4","mpg","mpe","mpeg","mov","mkv",
    "ogg","rm","svi"]

def audioExts : List String :=
  ["aiff","au","wav","flac","la","pac","m4a","ape","rka","shn","tta","wv","wma","brstm","amr","mp2","mp3",
    "ogg","aac","mpc","ra","ots","vox","voc","mid","mod","s3m","xm","it","asf"]

def imageExts : List String :=
  ["cr2","pdn","pgm","pict","bmp","png","dib","djvu","gif","psd","pdd","icns","ico","rle","tga","jpeg",
    "jpg","tiff","tif","jp2","jps","mng","xbm","xcf","pcx"]

def proExts : List String :=
  ["7z","ace","arc","arj","bzip2","cab","gzip","rar","tar","zip","iso","nrg","img","adf","dmg","cue","bin",
    "cif","ccd","sub","raw"]

section
variable (u : Unicode)

def getFileType (name : Bytes) : Bytes :=
  let e := fileExt u name
  if e = [] then []
  else if e ∈ videoExts.map lit then lit "Video"
  else if e ∈ audioExts.map lit then lit "Audio"
  else if e ∈ imageExts.map lit then lit "Image"
  else if e ∈ proExts.map lit then lit "Pro"
  else []

def normalizeFileType (typ name : Bytes) : Bytes :=
  if typ ∈ enumFileTypes.map lit then typ
  else match (ed2kTypeAliases.map (fun a => (lit a.1,lit a.2))).lookup typ with
    | some mapped => mapped
    | none => getFileType u name

/-- Text that is not UTF-8 is read as Windows-1252, which never fails. -/
def toUTF8 (s : Bytes) : Bytes := if validString s then s else encode (s.map u.windows1252)

def truncateRunes (s : Bytes) (max : Nat) : Bytes :=
  if (runes s).length ≤ max then s else encode (((runes s).take max).map Prod.fst)

def normalizeFile (file : File) : File :=
  let name := truncateRunes (toUTF8 u file.name) maxNameLen
  { file with
    name := name
    title := truncateRunes (toUTF8 u file.title) maxTitleLen
    artist := truncateRunes (toUTF8 u file.artist) maxArtistLen
    album := truncateRunes (toUTF8 u file.album) maxAlbumLen
    codec := truncateRunes (toUTF8 u file.codec) maxCodecLen
    type := normalizeFileType u file.type name }

end

end ENode.Storage

import DocPath.Text.Letters

/-! Content types: the document format and the character set that one names. -/

namespace DocPath.ContentType

/-- The formats in which documents are read and written. -/
inductive Format where
  | json
  | yaml
  deriving DecidableEq

def Format.name : Format → Text
  | .json => "json"
  | .yaml => "yaml"

/-- The part of a content type in front of its parameters, in small letters. -/
def mediaType (contentType : Text) : Text :=
  Text.lowerLetters (contentType.takeWhile (· != (CodePoint.ofChar ';')))

/-- The format whose name occurs in the media type; JSON if both do. -/
def format? (contentType : Text) : Option Format :=
  let media := mediaType contentType
  if Text.contains media Format.json.name then some .json
  else if Text.contains media Format.yaml.name then some .yaml
  else none

/-- Whether a code point is a small letter in any of its forms. -/
def isFormOf (letter c : CodePoint) : Bool :=
  c.lowerLetter == letter || (letter.is 's' && c.val == 0x17F)

/-- What follows a word of small letters that stands at the front in letters of any form. -/
def afterWord? : Text → Text → Option Text
  | [], rest => some rest
  | _ :: _, [] => none
  | letter :: word, c :: rest => if isFormOf letter c then afterWord? word rest else none

/-- The value of a parameter that stands at the front: an equals sign with white space around it, and
what lies before the next white space or semicolon. -/
def valueAt? (name t : Text) : Option Text :=
  match (afterWord? name t).map (List.dropWhile CodePoint.isBlank) with
  | some (c :: rest) =>
    if c = '=' then
      let word := (rest.dropWhile CodePoint.isBlank).takeWhile fun d => !d.isBlank && !d.is ';'
      if word.isEmpty then none else some word
    else none
  | _ => none

/-- The value of the first parameter whose name ends in the given one. -/
def value? (name : Text) : Text → Option Text
  | [] => none
  | c :: rest => (valueAt? name (c :: rest)).or (value? name rest)

/-- The name of the character set, without the quotation marks around it; UTF-8 if none is named. -/
def charset (contentType : Text) : Text :=
  match value? "charset" contentType with
  | some word => Text.trim (fun c => c.is '"' || c.is '\'') word
  | none => "utf-8"

end DocPath.ContentType

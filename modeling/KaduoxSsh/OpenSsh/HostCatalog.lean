import KaduoxSsh.Lib.SortedMap
import KaduoxSsh.OpenSsh.Include

/-!
# The hosts of a configuration

`parse_host_catalog` of `host_catalog.rs`: the names that a user can pick are the
arguments of the `Host` lines that are no patterns. The arguments of a line are cut
at white space first and rid of quotes then.
-/

namespace KaduoxSsh.OpenSsh

open Text
open Hosts.Toml (lines)

structure OpenSshHostCatalog where
  configPath : Option PathBuf
  aliases : List String
  hasUnsupportedStructuralDirectives : Bool
deriving DecidableEq

/-- What follows a key, without the blanks and the `=` that separate it. -/
def argumentsOf (separated : List Char) : List Char :=
  match separated.dropWhile isWhitespace with
  | '=' :: rest => rest.dropWhile isWhitespace
  | arguments => arguments

/-- The key of a line that is no comment, and what follows it. -/
def directiveParts (line : List Char) : Option (List Char × List Char) :=
  let line := line.dropWhile isWhitespace
  if line = [] ∨ line.head? = some '#' then none
  else
    match line.dropWhile fun c ↦ !isKeyEnd c with
    | [] => some (line, [])
    | separated => some (line.takeWhile fun c ↦ !isKeyEnd c, argumentsOf separated)

def isQuote (c : Char) : Bool := c = '\'' || c = '"'

/-- `trim_matches` with quotes. -/
def trimQuotes (token : List Char) : List Char :=
  ((token.dropWhile isQuote).reverse.dropWhile isQuote).reverse

def splitAsciiWhitespace (l : List Char) : List (List Char) :=
  (l.splitOnP isAsciiWhitespace).filter (· ≠ [])

/-- The tokens of a line, up to the one in which a comment starts. -/
def hostTokensFrom : List (List Char) → List (List Char)
  | [] => []
  | raw :: rest =>
      let token := trimQuotes (raw.takeWhile fun c ↦ c ≠ '#')
      let commentStarted := '#' ∈ raw
      (if token = [] then [] else [token]) ++ if commentStarted then [] else hostTokensFrom rest

def hostTokens (arguments : List Char) : List (List Char) :=
  hostTokensFrom (splitAsciiWhitespace arguments)

def concreteAlias (value : List Char) : Bool :=
  if value = [] ∨ value.head? = some '!' then false
  else !value.any fun c ↦ isWhitespace c || isControl c || ['*', '?', '[', ']'].contains c

/-- What a line adds to the names, and to the mark of lines that are not understood. -/
def hostCatalogLine (state : SortedMap String Unit × Bool) (line : List Char) :
    SortedMap String Unit × Bool :=
  match directiveParts line with
  | none => state
  | some (key, arguments) =>
      let key := String.ofList key
      let structural :=
        state.2 || (eqIgnoreAsciiCase key "match" || eqIgnoreAsciiCase key "include")
      if !eqIgnoreAsciiCase key "host" then (state.1, structural)
      else
        ((hostTokens arguments).foldl
          (fun aliases token ↦
            if concreteAlias token then aliases.insert (String.ofList token) () else aliases)
          state.1, structural)

def parseHostCatalog (contents : String) (configPath : Option PathBuf) : OpenSshHostCatalog :=
  let (aliases, structural) := (lines contents.toList).foldl hostCatalogLine (.empty, false)
  { configPath, aliases := aliases.keys, hasUnsupportedStructuralDirectives := structural }

example :
    (parseHostCatalog "Host \"prod\" 'staging' # comment fake\nHost api#comment\n" none).aliases =
      ["api", "prod", "staging"] := by decide

end KaduoxSsh.OpenSsh

namespace LabelInference

-- Members are kept in the order written, repeats too, and a number as it is spelled. What a repeated name
-- means is for the reader of a particular format to say.
inductive Json where
  | null
  | bool (value : Bool)
  | number (literal : String)
  | string (text : String)
  | array (items : List Json)
  | object (members : List (String × Json))
  -- Well-formed, but without a value: text with half of a surrogate pair, or an object with such a
  -- name.
  | unreadable

end LabelInference
